import Tabulation.EdgeStore.Sweep
import Tabulation.Proofs.BitSet
import Tabulation.Proofs.EdgeStore.Placed

/-!
# Sweeping keeps what the roots reach

`mark` collects a set of live handles that is closed under operands and holds all roots. What is
freed lies outside of it, so every root keeps its node, its meaning and its shape.
-/

namespace Tabulation

namespace EdgeStore

variable {L K : Type} [Ord L] [Ord K]

/-! ## Marking -/

/-- The marked handles are alive and closed under operands. -/
def Closed (s : EdgeStore L K) (marked : BitSet) : Prop :=
  ∀ i ∈ marked, ∃ node, s.node? ⟨i⟩ = some node ∧ ∀ p ∈ node.operands, p.index ∈ marked

theorem markTo_spec {s : EdgeStore L K} {n : Nat} {marked marked' : BitSet} {ef : EdgeRef}
    (hclosed : Closed s marked) (h : s.markTo n marked ef = .ok marked') :
    Closed s marked' ∧ (∀ i ∈ marked, i ∈ marked') ∧ ef.index ∈ marked' := by
  induction n generalizing marked marked' ef with
  | zero => cases h
  | succ n ih =>
    rw [markTo] at h
    split at h
    · next hin =>
      obtain rfl := Except.ok.inj h
      exact ⟨hclosed, fun _ hi => hi, hin⟩
    · rw [bind_eq_ok] at h
      obtain ⟨node, hnode, h⟩ := h
      rw [bind_eq_ok] at h
      obtain ⟨m, hfold, h⟩ := h
      rw [pure_eq_ok] at h
      have hm := foldlM_ok (fun done m => Closed s m ∧ (∀ i ∈ marked, i ∈ m) ∧
        ∀ p ∈ done, p.index ∈ m) hfold ⟨hclosed, fun _ hi => hi, by simp⟩ (by
          intro done p c c' _ ⟨hc, hsub, hdone⟩ hp
          obtain ⟨hc', hsub', hp'⟩ := ih hc hp
          refine ⟨hc', fun i hi => hsub' i (hsub i hi), fun q hq => ?_⟩
          rcases List.mem_append.1 hq with hq | hq
          · exact hsub' _ (hdone q hq)
          · rw [List.mem_singleton.1 hq]
            exact hp')
      obtain ⟨hm, hsub, hops⟩ := hm
      subst h
      refine ⟨fun i hi => ?_, fun i hi => BitSet.mem_insert.2 (.inr (hsub i hi)),
        BitSet.mem_insert.2 (.inl rfl)⟩
      rcases BitSet.mem_insert.1 hi with rfl | hi
      · exact ⟨node, node_eq_ok.1 hnode, fun p hp => BitSet.mem_insert.2 (.inr (hops p hp))⟩
      · obtain ⟨node', hn', hops'⟩ := hm i hi
        exact ⟨node', hn', fun p hp => BitSet.mem_insert.2 (.inr (hops' p hp))⟩

theorem mark_spec {s : EdgeStore L K} {roots : List EdgeRef} {marked : BitSet}
    (h : s.mark roots = .ok marked) :
    Closed s marked ∧ ∀ ef ∈ roots, ef.index ∈ marked := by
  have hm := foldlM_ok (fun done m => Closed s m ∧ ∀ p ∈ done, p.index ∈ m) h
    ⟨fun i hi => absurd hi (BitSet.not_mem_ofCapacity _ i), by simp⟩ (by
      intro done p c c' _ ⟨hc, hdone⟩ hp
      obtain ⟨hc', hsub, hp'⟩ := markTo_spec hc hp
      refine ⟨hc', fun q hq => ?_⟩
      rcases List.mem_append.1 hq with hq | hq
      · exact hsub _ (hdone q hq)
      · rw [List.mem_singleton.1 hq]
        exact hp')
  exact ⟨hm.1, fun ef hef => hm.2 ef (List.mem_reverse.2 hef)⟩

theorem mem_unmarked {s : EdgeStore L K} {marked : BitSet} {i : Nat} :
    i ∈ s.unmarked marked ↔ 3 ≤ i ∧ i < s.slots.size ∧ i ∉ marked := by
  simp only [unmarked, List.range_eq_range', List.drop_range', List.mem_filter, List.mem_range'_1,
    EdgeRef.reserved, BitSet.mem_iff]
  grind

/-! ## Freeing -/

section Free

variable [Payload K L]

theorem freeSlot_frame (s : EdgeStore L K) (i : Nat) :
    (s.freeSlot i).joinLimit = s.joinLimit ∧ (s.freeSlot i).interned = s.interned ∧
      (s.freeSlot i).composed = s.composed ∧ (s.freeSlot i).joined = s.joined := by
  unfold freeSlot
  split <;> simp

theorem freeAll_frame (s : EdgeStore L K) (is : List Nat) :
    (is.foldl freeSlot s).joinLimit = s.joinLimit ∧
      (is.foldl freeSlot s).interned = s.interned ∧
      (is.foldl freeSlot s).composed = s.composed ∧ (is.foldl freeSlot s).joined = s.joined := by
  induction is generalizing s with
  | nil => simp
  | cons i is ih =>
    obtain ⟨h₁, h₂, h₃, h₄⟩ := ih (s.freeSlot i)
    obtain ⟨k₁, k₂, k₃, k₄⟩ := freeSlot_frame s i
    exact ⟨h₁.trans k₁, h₂.trans k₂, h₃.trans k₃, h₄.trans k₄⟩

theorem freeSlot_height {s : EdgeStore L K} {ef : EdgeRef} {i : Nat} (hi : ef.index ≠ i) :
    (s.freeSlot i).height ef = s.height ef := by
  unfold freeSlot
  split
  · simp [height, slot?, Ne.symm hi]
  · rfl

theorem freeAll_height {s : EdgeStore L K} {ef : EdgeRef} {is : List Nat} (hi : ef.index ∉ is) :
    (is.foldl freeSlot s).height ef = s.height ef := by
  induction is generalizing s with
  | nil => rfl
  | cons i is ih =>
    rw [List.mem_cons, not_or] at hi
    rw [List.foldl_cons, ih hi.2, freeSlot_height hi.1]

variable [Std.TransOrd L] [Std.LawfulEqOrd L] [Std.TransOrd K] [Std.LawfulEqOrd K]

theorem freeSlot_spec {s : EdgeStore L K} (h : Placed s) (i : Nat) :
    Placed (s.freeSlot i) ∧
      ∀ ef, (s.freeSlot i).node? ef = if ef.index = i then none else s.node? ef := by
  unfold freeSlot
  cases hslot : s.slot? ⟨i⟩ with
  | none =>
    refine ⟨h, fun ef => ?_⟩
    change s.node? ef = _
    split
    · next hi =>
      subst hi
      rw [node?, hslot]
      rfl
    · rfl
  | some slot =>
    have hin : s.slots[i]? = some (some slot) := Option.join_eq_some_iff.1 hslot
    have hlt : i < s.slots.size := (Array.getElem?_eq_some_iff.1 hin).1
    have hnode : ∀ ef, ({ s with
        slots := s.slots.setIfInBounds i none
        canon := (s.canon.erase slot.node).2
        free := i :: s.free
        swept := s.swept + 1 } : EdgeStore L K).node? ef =
          if ef.index = i then none else s.node? ef := by
      intro ef
      simp only [node?, slot?, Array.getElem?_setIfInBounds, eq_comm, hlt]
      split <;> rfl
    refine ⟨⟨fun j hj => ?_, List.nodup_cons.2 ⟨fun hi => ?_, h.nodup⟩, fun node ef => ?_⟩, hnode⟩
    · rw [Array.getElem?_setIfInBounds]
      split
      · simp
      · next hij => exact h.free j ((List.mem_cons.1 hj).resolve_left (Ne.symm hij))
    · rw [h.free i hi] at hin
      cases hin
    · rw [hnode]
      change (s.canon.erase slot.node).2.find? node = _ ↔ _
      by_cases hne : slot.node = node
      · subst hne
        rw [KindedCanon.find?_erase_self]
        refine ⟨fun h => (by cases h), ?_⟩
        rintro ⟨hn, hk⟩
        -- The only handle of a canonical node is the one that is freed.
        split at hn
        · cases hn
        · next hne =>
          have hi : s.node? ⟨i⟩ = some slot.node := by rw [node?, hslot]; rfl
          have h₁ := (h.canon slot.node ef).2 ⟨hn, hk⟩
          rw [(h.canon slot.node ⟨i⟩).2 ⟨hi, hk⟩] at h₁
          exact absurd (congrArg EdgeRef.index (Option.some.inj h₁)).symm hne
      · rw [KindedCanon.find?_erase_ne hne, h.canon]
        split
        · next hi =>
          have hi : s.node? ef = some slot.node := by
            rw [node?, show ef = ⟨i⟩ by cases ef; cases hi; rfl, hslot]
            rfl
          simp [hi, hne]
        · rfl

theorem freeAll_spec {s : EdgeStore L K} (h : Placed s) (is : List Nat) :
    Placed (is.foldl freeSlot s) ∧
      ∀ ef, (is.foldl freeSlot s).node? ef = if ef.index ∈ is then none else s.node? ef := by
  induction is generalizing s with
  | nil => exact ⟨h, fun ef => by simp⟩
  | cons i is ih =>
    obtain ⟨h₁, hnode₁⟩ := freeSlot_spec h i
    obtain ⟨h₂, hnode₂⟩ := ih h₁
    refine ⟨h₂, fun ef => ?_⟩
    rw [List.foldl_cons, hnode₂, hnode₁]
    by_cases hi : ef.index = i <;> by_cases his : ef.index ∈ is <;> simp [hi, his]

end Free

/-! ## Sweeping -/

section Sweep

variable {s s' : EdgeStore L K}

/-- Nodes outside of a set of positions are kept, and the set holds no operand of a kept node. -/
structure Keeps (freed : Nat → Prop) (s s' : EdgeStore L K) : Prop where
  node? : ∀ ef, ¬ freed ef.index → s'.node? ef = s.node? ef
  gone : ∀ ef, freed ef.index → s'.node? ef = none
  operands : ∀ ef node, ¬ freed ef.index → s.node? ef = some node →
    ∀ p ∈ node.operands, ¬ freed p.index
  joinLimit : s'.joinLimit = s.joinLimit
  interned : s'.interned = s.interned

theorem Keeps.absorbs {freed : Nat → Prop} (h : Keeps freed s s') {ef : EdgeRef}
    (ha : Absorbs s ef) (hef : ¬ freed ef.index) : Absorbs s' ef := by
  rcases ha with ha | ha | ⟨seed, parts, hn, hp⟩
  · exact .inl ha
  · exact .inr (.inl ha)
  · exact .inr (.inr ⟨seed, parts, (h.node? _ hef).trans hn, hp⟩)

variable [Payload K L]

/-- Sweeping frees some positions, among them no root, no reserved handle and no operand of what is
kept. -/
theorem sweep_keeps [Std.TransOrd L] [Std.LawfulEqOrd L] [Std.TransOrd K] [Std.LawfulEqOrd K]
    (h : Placed s)
    (hreserved : ∀ ef node, ef.index < 3 → s.node? ef = some node → node.operands = [])
    {roots : List EdgeRef} {n : Nat} (hs : s.sweep roots = .ok (n, s')) :
    ∃ is : List Nat, s' = is.foldl freeSlot s.forget ∧ Placed s' ∧ Keeps (· ∈ is) s s' ∧
      (∀ ef ∈ roots, ef.index ∉ is) ∧ ∀ i ∈ is, 3 ≤ i := by
  rw [sweep, bind_eq_ok] at hs
  obtain ⟨marked, hmark, hs⟩ := hs
  obtain ⟨-, rfl⟩ := Prod.mk.inj (pure_eq_ok.1 hs)
  obtain ⟨hclosed, hroots⟩ := mark_spec hmark
  have hplaced : Placed s.forget := ⟨h.free, h.nodup, h.canon⟩
  obtain ⟨hplaced', hnode⟩ := freeAll_spec hplaced (s.forget.unmarked marked)
  obtain ⟨hlimit, hinterned, -, -⟩ := freeAll_frame s.forget (s.forget.unmarked marked)
  refine ⟨_, rfl, hplaced', ⟨fun ef hef => ?_, fun ef hef => ?_, fun ef node hef hn p hp => ?_,
    hlimit, hinterned⟩, fun ef hef hm => (mem_unmarked.1 hm).2.2 (hroots ef hef),
    fun i hi => (mem_unmarked.1 hi).1⟩
  · rw [hnode, if_neg hef]
    rfl
  · rw [hnode, if_pos hef]
  · rw [mem_unmarked] at hef ⊢
    by_cases hm : ef.index ∈ marked
    · obtain ⟨node', hn', hops⟩ := hclosed ef.index hm
      obtain rfl := Option.some.inj (hn'.symm.trans hn)
      exact fun hfreed => hfreed.2.2 (hops p hp)
    · -- What is neither marked nor freed is reserved, and has no operands.
      obtain ⟨slot, hslot, -⟩ := node?_eq_some.1 hn
      have hsize : ef.index < s.forget.slots.size := (Array.getElem?_eq_some_iff.1 hslot).1
      have hlt : ef.index < 3 := by
        apply Nat.lt_of_not_le
        exact fun hge => hef ⟨hge, hsize, hm⟩
      rw [hreserved ef node hlt hn] at hp
      cases hp

variable [JoinLattice L]

theorem Keeps.means {freed : Nat → Prop} (h : Keeps freed s s') {ef : EdgeRef} {φ : L → L}
    (hφ : Means s ef φ) (hef : ¬ freed ef.index) : Means s' ef φ := by
  induction hφ with
  | leaf hn he => exact .leaf ((h.node? _ hef).trans hn) he
  | compose hn _ _ ihf ihg =>
    have hops := h.operands _ _ hef hn
    exact .compose ((h.node? _ hef).trans hn) (ihf (hops _ (by simp [EdgeNode.operands])))
      (ihg (hops _ (by simp [EdgeNode.operands])))
  | join Φ hn _ ih =>
    exact .join Φ ((h.node? _ hef).trans hn) fun p hp => ih p hp (h.operands _ _ hef hn p hp)

theorem Keeps.leafAt {freed : Nat → Prop} (h : Keeps freed s s') {ef : EdgeRef}
    {f : EdgeFunction L K} (hf : LeafAt s f ef) (hef : ¬ freed ef.index) : LeafAt s' f ef :=
  hf.imp fun _ hn => (h.node? _ hef).trans hn

end Sweep

end EdgeStore

end Tabulation
