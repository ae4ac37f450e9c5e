import Tabulation.Proofs.EdgeStore.Meaning

/-!
# Nodes and their handles

A node is put into a slot of the store, and its handle is the position of the slot. `Placed` says
that free slots are empty and that the canonical tables know exactly the live nodes of their kind.

**Normal forms.** `NormalJoin` says which join nodes may be stored.

**Absorption.** A handle that `Absorbs` the identity already covers it by its shape. Joining the
identity to it gives back the very same handle.

**Leaves.** `LeafAt` says under which handle the store keeps a client's edge function.
-/

namespace Tabulation

namespace EdgeStore

variable {L K : Type} [Ord L] [Ord K]

/-! ## Storing a node -/

theorem node?_eq_some {s : EdgeStore L K} {ef : EdgeRef} {node : EdgeNode L K} :
    s.node? ef = some node ↔
      ∃ slot : Slot L K, s.slots[ef.index]? = some (some slot) ∧ slot.node = node := by
  unfold node? slot?
  cases h : s.slots[ef.index]? with
  | none => simp
  | some o => cases o <;> simp

/-- A node is put into a slot that was empty or did not exist. -/
theorem slot?_allocate {s t : EdgeStore L K} (hfree : ∀ i ∈ s.free, s.slots[i]? = some none)
    {node : EdgeNode L K} {ef : EdgeRef} (ha : s.allocate node = (ef, t)) :
    s.slot? ef = none ∧
      ∀ ef', t.slot? ef' = if ef' = ef then some ⟨node, s.heightOf node⟩ else s.slot? ef' := by
  have hindex : ∀ (ef : EdgeRef) (i : Nat), ef = ⟨i⟩ ↔ ef.index = i := fun ef i => by
    cases ef
    simp
  unfold allocate at ha
  cases hf : s.free with
  | nil =>
    simp only [hf, Prod.mk.injEq] at ha
    obtain ⟨rfl, rfl⟩ := ha
    refine ⟨by simp [slot?], fun ef => ?_⟩
    simp only [slot?, hindex, Array.getElem?_push]
    split <;> rfl
  | cons i rest =>
    simp only [hf, Prod.mk.injEq] at ha
    obtain ⟨rfl, rfl⟩ := ha
    have hi : s.slots[i]? = some none := hfree i (by simp [hf])
    have hlt : i < s.slots.size := (Array.getElem?_eq_some_iff.1 hi).1
    refine ⟨by simp [slot?, hi], fun ef => ?_⟩
    simp only [slot?, hindex, Array.getElem?_setIfInBounds, eq_comm, hlt]
    split <;> rfl

theorem allocate_spec {s t : EdgeStore L K} (hfree : ∀ i ∈ s.free, s.slots[i]? = some none)
    (hnodup : s.free.Nodup) {node : EdgeNode L K} {ef : EdgeRef}
    (ha : s.allocate node = (ef, t)) :
    s.node? ef = none ∧ (∀ ef', t.node? ef' = if ef' = ef then some node else s.node? ef') ∧
    (∀ i ∈ t.free, t.slots[i]? = some none) ∧ t.free.Nodup := by
  obtain ⟨hnew, hslot⟩ := slot?_allocate hfree ha
  refine ⟨by rw [node?, hnew]; rfl, fun ef' => ?_, ?_⟩
  · rw [node?, hslot]
    split <;> rfl
  unfold allocate at ha
  cases hf : s.free with
  | nil =>
    simp only [hf, Prod.mk.injEq] at ha
    obtain ⟨rfl, rfl⟩ := ha
    simp
  | cons i rest =>
    simp only [hf, Prod.mk.injEq] at ha
    obtain ⟨rfl, rfl⟩ := ha
    rw [hf, List.nodup_cons] at hnodup
    refine ⟨fun j hj => ?_, hnodup.2⟩
    have hne : i ≠ j := fun hij => hnodup.1 (hij ▸ hj)
    simp only [Array.getElem?_setIfInBounds, hne, if_false]
    exact hfree j (by simp [hf, hj])

theorem allocate_frame {s t : EdgeStore L K} {node : EdgeNode L K} {ef : EdgeRef}
    (ha : s.allocate node = (ef, t)) :
    t.joinLimit = s.joinLimit ∧ t.composed = s.composed ∧ t.joined = s.joined ∧
      t.canon = s.canon ∧ t.interned = s.interned := by
  unfold allocate at ha
  split at ha <;> obtain ⟨-, rfl⟩ := Prod.mk.inj ha <;> simp

section Orders

variable [Payload K L] [Std.TransOrd L] [Std.LawfulEqOrd L] [Std.TransOrd K] [Std.LawfulEqOrd K]
  {s s' : EdgeStore L K} {ef : EdgeRef}

/-- The part of the invariant that says where nodes are. -/
structure Placed (s : EdgeStore L K) : Prop where
  free : ∀ i ∈ s.free, s.slots[i]? = some none
  nodup : s.free.Nodup
  canon : ∀ node ef, s.canon.find? node = some ef ↔ s.node? ef = some node ∧ (kind? node).isSome

/-- A node that is not found is put into an empty slot. -/
theorem intern_cases (h : Placed s) {node : EdgeNode L K} (hi : s.intern node = (ef, s')) :
    s' = s ∧ s.node? ef = some node ∨
    ∃ t, s.allocate node = (ef, t) ∧
      s' = { t with canon := (s.canon.insert node ef).2, interned := s.interned + 1 } ∧
      Placed s' := by
  unfold intern at hi
  split at hi
  · next e he =>
    obtain ⟨rfl, rfl⟩ := Prod.mk.inj hi
    exact .inl ⟨rfl, ((h.canon node _).1 he).1⟩
  next hnone =>
  cases ha : s.allocate node with
  | mk e t =>
  obtain ⟨hnew, hnode, hfree, hnodup⟩ := allocate_spec h.free h.nodup ha
  simp only [ha, Prod.mk.injEq] at hi
  obtain ⟨rfl, rfl⟩ := hi
  obtain ⟨-, -, -, hcanon, hinterned⟩ := allocate_frame ha
  -- A live copy of a canonical node would have been found.
  have hfresh : (kind? node).isSome → ∀ f, s.node? f ≠ some node := by
    intro hk f hf
    rw [(h.canon node f).2 ⟨hf, hk⟩] at hnone
    cases hnone
  refine .inr ⟨t, rfl, by rw [hcanon, hinterned], ⟨hfree, hnodup, fun node' ef' => ?_⟩⟩
  change (t.canon.insert node e).2.find? node' = _ ↔ t.node? ef' = _ ∧ _
  rw [hnode, hcanon]
  by_cases hne : node = node'
  · subst hne
    by_cases hk : (kind? node).isSome
    · rw [KindedCanon.find?_insert_self hk]
      constructor
      · rintro ⟨⟩
        simp [hk]
      · rintro ⟨hn, -⟩
        split at hn
        · next heq => rw [heq]
        · exact absurd hn (hfresh hk ef')
    · rw [Bool.not_eq_true, Option.isSome_eq_false_iff, Option.isNone_iff_eq_none] at hk
      simp [KindedCanon.find?, hk]
  · rw [KindedCanon.find?_insert_ne hne, h.canon]
    split
    · next heq =>
      subst heq
      simp [hne, hnew]
    · rfl

end Orders

/-! ## Shapes -/

/-- Parts are ascending, and neither all-top nor all-bottom. -/
structure NormalParts (parts : List EdgeRef) : Prop where
  ascending : parts.Pairwise (·.index < ·.index)
  allTop : .allTop ∉ parts
  allBottom : .allBottom ∉ parts

/-- The shape of the function says that it covers the identity. -/
def Absorbs (s : EdgeStore L K) (ef : EdgeRef) : Prop :=
  ef = .identity ∨ ef = .allBottom ∨
    ∃ seed parts, s.node? ef = some (.join seed parts) ∧ .identity ∈ parts

theorem Absorbs.mono {s s' : EdgeStore L K} {ef : EdgeRef} (h : Absorbs s ef) (hle : s ≤ s') :
    Absorbs s' ef := by
  rcases h with h | h | ⟨seed, parts, hn, hp⟩
  · exact .inl h
  · exact .inr (.inl h)
  · exact .inr (.inr ⟨seed, parts, hle.1 _ _ hn, hp⟩)

variable [JoinLattice L]

/-- The join node of a seed and parts could not be written in a simpler way. -/
structure NormalJoin (limit : Nat) (seed : L) (parts : List EdgeRef) : Prop
    extends NormalParts parts where
  nonempty : parts ≠ []
  seed_ne : seed ≠ bottom
  single : parts.length = 1 → seed ≠ top
  short : parts.length ≤ limit

/-- The handle of a constant: a bound is reserved, and any other value has a node. -/
inductive ConstantAt (s : EdgeStore L K) (c : L) : EdgeRef → Prop
  | top : c = top → ConstantAt s c .allTop
  | bottom : c ≠ top → c = bottom → ConstantAt s c .allBottom
  | node {ef : EdgeRef} : c ≠ top → c ≠ bottom → s.node? ef = some (.constant c) → ConstantAt s c ef

theorem ConstantAt.imp {s s' : EdgeStore L K} {c : L} {ef : EdgeRef} (h : ConstantAt s c ef)
    (himp : ∀ node, s.node? ef = some node → s'.node? ef = some node) : ConstantAt s' c ef := by
  cases h with
  | top hc => exact .top hc
  | bottom hne hc => exact .bottom hne hc
  | node htop hbot hn => exact .node htop hbot (himp _ hn)

theorem ConstantAt.mono {s s' : EdgeStore L K} {c : L} {ef : EdgeRef} (h : ConstantAt s c ef)
    (hle : s ≤ s') : ConstantAt s' c ef := h.imp fun _ => hle.1 _ _

variable [Payload K L]

/-- The handle of a client's edge function. -/
inductive LeafAt (s : EdgeStore L K) : EdgeFunction L K → EdgeRef → Prop
  | identity : LeafAt s .identity .identity
  | allTop : LeafAt s .allTop .allTop
  | allBottom : LeafAt s .allBottom .allBottom
  | constant {c : L} {ef : EdgeRef} : ConstantAt s c ef → LeafAt s (.constant c) ef
  | folded {k : K} {c : L} {ef : EdgeRef} : Payload.constant? k = some c → ConstantAt s c ef →
      LeafAt s (.custom k) ef
  | custom {k : K} {ef : EdgeRef} : Payload.constant? (L := L) k = none →
      s.node? ef = some (.custom k) → LeafAt s (.custom k) ef

/-- Only the node of the handle matters. -/
theorem LeafAt.imp {s s' : EdgeStore L K} {e : EdgeFunction L K} {ef : EdgeRef} (h : LeafAt s e ef)
    (himp : ∀ node, s.node? ef = some node → s'.node? ef = some node) : LeafAt s' e ef := by
  cases h with
  | identity => exact .identity
  | allTop => exact .allTop
  | allBottom => exact .allBottom
  | constant hc => exact .constant (hc.imp himp)
  | folded hk hc => exact .folded hk (hc.imp himp)
  | custom hk hn => exact .custom hk (himp _ hn)

theorem LeafAt.mono {s s' : EdgeStore L K} {e : EdgeFunction L K} {ef : EdgeRef}
    (h : LeafAt s e ef) (hle : s ≤ s') : LeafAt s' e ef := h.imp fun _ => hle.1 _ _

end EdgeStore

end Tabulation
