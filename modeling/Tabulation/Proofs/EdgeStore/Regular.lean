import Tabulation.Proofs.EdgeStore.Shape

/-!
# Regular stores

What holds of every store that its own operations built, whatever the lattice and the payloads are
like. Nothing here asks for a law.

**`Regular`.** The reserved handles hold the reserved nodes. The free list holds exactly the empty
slots, each once. The canonical tables know exactly the live nodes of their kind. All other live
nodes are in normal form, their operands are alive and lower than they are, what is remembered was
the right shape when it was remembered, and the counts of stored and freed nodes add up.

**Operations.** Each operation on live handles returns, keeps a store regular and only lets it grow;
its result has the shape that `LeafAt`, `Composes` or `Joined` says.
-/

namespace Tabulation

variable {L K : Type} [Ord L] [Ord K]

namespace EdgeStore

variable {s s' : EdgeStore L K} {a b c ef : EdgeRef}

/-- The handle may be used. -/
def Alive (s : EdgeStore L K) (ef : EdgeRef) : Prop := ∃ node, s.node? ef = some node

theorem Alive.mono (h : s.Alive ef) (hle : s ≤ s') :
    s'.Alive ef := h.imp fun _ hn => hle.1 _ _ hn

theorem Alive.slot (h : s.Alive ef) :
    ∃ slot, s.slots[ef.index]? = some (some slot) := by
  obtain ⟨node, hn⟩ := h
  obtain ⟨slot, hslot, -⟩ := node?_eq_some.1 hn
  exact ⟨slot, hslot⟩

/-- Either order of two live handles is one of live handles. -/
theorem Alive.joinKey (ha : s.Alive a) (hb : s.Alive b) :
    s.Alive (joinKey a b).1 ∧ s.Alive (joinKey a b).2 := by
  rcases joinKey_eq a b with heq | heq
  · exact heq ▸ ⟨ha, hb⟩
  · exact heq ▸ ⟨hb, ha⟩

/-! ## Slots -/

/-- A new node fills an empty slot, or a new one. -/
theorem allocate_free {t : EdgeStore L K} (hfree : ∀ i, i ∈ s.free ↔ s.slots[i]? = some none)
    (hnodup : s.free.Nodup) {node : EdgeNode L K} (ha : s.allocate node = (ef, t)) :
    (∀ i, i ∈ t.free ↔ t.slots[i]? = some none) ∧
      t.free.length + s.slots.size + 1 = s.free.length + t.slots.size ∧
      t.free.length ≤ s.free.length ∧ t.swept = s.swept := by
  unfold allocate at ha
  cases hf : s.free with
  | nil =>
    simp only [hf, Prod.mk.injEq] at ha
    obtain ⟨rfl, rfl⟩ := ha
    refine ⟨fun i => ?_, by simp [Nat.add_comm], by simp, rfl⟩
    change i ∈ [] ↔ (s.slots.push _)[i]? = _
    rw [← hf, hfree, Array.getElem?_push]
    split
    · next hi =>
      subst hi
      simp
    · rfl
  | cons j rest =>
    simp only [hf, Prod.mk.injEq] at ha
    obtain ⟨rfl, rfl⟩ := ha
    have hj : s.slots[j]? = some none := (hfree j).1 (by simp [hf])
    have hlt : j < s.slots.size := (Array.getElem?_eq_some_iff.1 hj).1
    rw [hf, List.nodup_cons] at hnodup
    refine ⟨fun i => ?_, by simp; omega, by simp, rfl⟩
    change i ∈ rest ↔ (s.slots.setIfInBounds j _)[i]? = _
    rw [Array.getElem?_setIfInBounds]
    by_cases hij : j = i
    · subst hij
      simp [hnodup.1, hlt]
    · have := hfree i
      rw [hf, List.mem_cons] at this
      simpa [hij, Ne.symm hij] using this

/-- Freed slots go to the free list, and are counted. -/
theorem freeAll_free [Payload K L] (hfree : ∀ i, i ∈ s.free ↔ s.slots[i]? = some none)
    (hcount : s.interned + s.free.length + 3 = s.swept + s.slots.size)
    (hswept : s.free.length ≤ s.swept) (is : List Nat) :
    (∀ i, i ∈ (is.foldl freeSlot s).free ↔ (is.foldl freeSlot s).slots[i]? = some none) ∧
      (is.foldl freeSlot s).interned + (is.foldl freeSlot s).free.length + 3 =
        (is.foldl freeSlot s).swept + (is.foldl freeSlot s).slots.size ∧
      (is.foldl freeSlot s).free.length ≤ (is.foldl freeSlot s).swept := by
  induction is generalizing s with
  | nil => exact ⟨hfree, hcount, hswept⟩
  | cons i is ih =>
    rw [List.foldl_cons]
    refine ih (fun j => ?_) ?_ ?_
    · unfold freeSlot
      cases hslot : s.slot? ⟨i⟩ with
      | none => exact hfree j
      | some slot =>
        have hin : s.slots[i]? = some (some slot) := Option.join_eq_some_iff.1 hslot
        have hlt : i < s.slots.size := (Array.getElem?_eq_some_iff.1 hin).1
        change j ∈ i :: s.free ↔ (s.slots.setIfInBounds i none)[j]? = some none
        rw [Array.getElem?_setIfInBounds, List.mem_cons, hfree]
        by_cases hij : i = j
        · simp [hij, hij ▸ hlt]
        · simp [hij, Ne.symm hij]
    · unfold freeSlot
      split
      · simp only [List.length_cons, Array.size_setIfInBounds]
        omega
      · exact hcount
    · unfold freeSlot
      split
      · exact Nat.succ_le_succ hswept
      · exact hswept

theorem create_eq_ok {limit : Nat} : create limit = .ok s ↔ 2 ≤ limit ∧ s = withLimit limit := by
  unfold create
  split
  · next h => simp [h, eq_comm]
  · next h => simp [h]

/-! ## Trees -/

/-- The tree of nodes behind a handle is the same in both stores. -/
inductive SameTree (s s' : EdgeStore L K) : EdgeRef → Prop
  | node {ef : EdgeRef} {node : EdgeNode L K} : s.node? ef = some node → s'.node? ef = some node →
      (∀ p ∈ node.operands, SameTree s s' p) → SameTree s s' ef

theorem SameTree.trans {s₁ s₂ s₃ : EdgeStore L K} (h : SameTree s₁ s₂ ef)
    (k : SameTree s₂ s₃ ef) : SameTree s₁ s₃ ef := by
  induction h with
  | node h₁ h₂ _ ih =>
    cases k with
    | node k₂ k₃ kops =>
      obtain rfl := Option.some.inj (h₂.symm.trans k₂)
      exact .node h₁ k₃ fun p hp => ih p hp (kops p hp)

end EdgeStore

variable [JoinLattice L] [Payload K L]

/-- A node that may be a part of a join: it neither ignores its argument nor is a join. -/
structure EdgeNode.IsPart (node : EdgeNode L K) : Prop where
  constant : node.constant? = none
  join : ∀ seed parts, node ≠ .join seed parts

namespace EdgeStore

variable {s s' : EdgeStore L K} {a b c ef : EdgeRef}

/-- The composition of two handles with nodes `f` and `g` could not be written in a simpler way. -/
structure NormalCompose (a b : EdgeRef) (f g : EdgeNode L K) : Prop where
  first : a ≠ .identity
  second : b ≠ .identity
  constant_first : f.constant? = none
  constant_second : g.constant? = none
  custom : foldCompose f g = none
  right : ∀ x y, f ≠ .compose x y

/-- A node of a handle that is not reserved: it could not be written in a simpler way. -/
def Normal (s : EdgeStore L K) : EdgeNode L K → Prop
  | .identity | .allTop | .allBottom => False
  | .constant c => c ≠ top ∧ c ≠ bottom
  | .custom k => Payload.constant? (L := L) k = none
  | .compose a b => ∃ f g, s.node? a = some f ∧ s.node? b = some g ∧ NormalCompose a b f g
  | .join seed parts => NormalJoin s.joinLimit seed parts ∧
      ∀ p ∈ parts, ∃ node, s.node? p = some node ∧ node.IsPart

theorem Normal.mono {node : EdgeNode L K} (h : Normal s node) (hle : s ≤ s') : Normal s' node := by
  cases node with
  | identity => exact h
  | allTop => exact h
  | allBottom => exact h
  | constant c => exact h
  | custom k => exact h
  | compose a b =>
    obtain ⟨f, g, hf, hg, hn⟩ := h
    exact ⟨f, g, hle.1 _ _ hf, hle.1 _ _ hg, hn⟩
  | join seed parts =>
    obtain ⟨hn, hparts⟩ := h
    refine ⟨hle.2.1 ▸ hn, fun p hp => ?_⟩
    obtain ⟨node, hnode, hpart⟩ := hparts p hp
    exact ⟨node, hle.1 _ _ hnode, hpart⟩

theorem Normal.operands {node : EdgeNode L K} (h : Normal s node) {p : EdgeRef}
    (hp : p ∈ node.operands) : s.Alive p := by
  cases node with
  | compose a b =>
    obtain ⟨f, g, hf, hg, -⟩ := h
    rcases (by simpa [EdgeNode.operands] using hp : p = a ∨ p = b) with rfl | rfl
    · exact ⟨f, hf⟩
    · exact ⟨g, hg⟩
  | join seed parts =>
    obtain ⟨node, hn, -⟩ := h.2 p hp
    exact ⟨node, hn⟩
  | _ => cases hp

theorem Keeps.normal {freed : Nat → Prop} (hk : Keeps freed s s') {node : EdgeNode L K}
    (hops : ∀ p ∈ node.operands, ¬ freed p.index) (hn : Normal s node) : Normal s' node := by
  cases node with
  | compose a b =>
    obtain ⟨f, g, hf, hg, hn⟩ := hn
    exact ⟨f, g, (hk.node? a (hops a (by simp [EdgeNode.operands]))).trans hf,
      (hk.node? b (hops b (by simp [EdgeNode.operands]))).trans hg, hn⟩
  | join seed parts =>
    obtain ⟨hnormal, hparts⟩ := hn
    refine ⟨hk.joinLimit ▸ hnormal, fun p hp => ?_⟩
    obtain ⟨node, hnode, hpart⟩ := hparts p hp
    exact ⟨node, (hk.node? p (hops p hp)).trans hnode, hpart⟩
  | _ => exact hn

/-! ## Meaning -/

theorem Within.means {n : Nat} (h : Within s n ef) : ∃ φ, Means s ef φ := by
  induction n generalizing ef with
  | zero => cases h
  | succ n ih =>
    obtain ⟨node, hn, hops⟩ := h
    cases node with
    | compose f g =>
      obtain ⟨φ, hφ⟩ := ih (hops f (by simp [EdgeNode.operands]))
      obtain ⟨ψ, hψ⟩ := ih (hops g (by simp [EdgeNode.operands]))
      exact ⟨_, .compose hn hφ hψ⟩
    | join seed parts =>
      have : Nonempty (L → L) := ⟨id⟩
      choose! Φ hΦ using fun p hp => ih (hops p hp)
      exact ⟨_, .join Φ hn hΦ⟩
    | _ => exact ⟨_, .leaf hn rfl⟩

theorem SameTree.means {φ : L → L} (h : SameTree s s' ef) (hφ : Means s ef φ) : Means s' ef φ := by
  induction hφ with
  | leaf hn hleaf =>
    obtain ⟨hn₁, hn', -⟩ := h
    obtain rfl := Option.some.inj (hn.symm.trans hn₁)
    exact .leaf hn' hleaf
  | compose hn _ _ ihf ihg =>
    obtain ⟨hn₁, hn', hops⟩ := h
    obtain rfl := Option.some.inj (hn.symm.trans hn₁)
    exact .compose hn' (ihf (hops _ (by simp [EdgeNode.operands])))
      (ihg (hops _ (by simp [EdgeNode.operands])))
  | join Φ hn _ ih =>
    obtain ⟨hn₁, hn', hops⟩ := h
    obtain rfl := Option.some.inj (hn.symm.trans hn₁)
    exact .join Φ hn' fun p hp => ih p hp (hops p hp)

/-! ## The invariant -/

variable [DecidableEq L]

/-- The invariant of a store, without laws. -/
structure Regular (s : EdgeStore L K) : Prop where
  identity : s.node? .identity = some .identity
  allTop : s.node? .allTop = some .allTop
  allBottom : s.node? .allBottom = some .allBottom
  free : ∀ i, i ∈ s.free ↔ s.slots[i]? = some none
  nodup : s.free.Nodup
  canon : ∀ node ef, s.canon.find? node = some ef ↔ s.node? ef = some node ∧ (kind? node).isSome
  normal : ∀ ef node, s.node? ef = some node → 3 ≤ ef.index → Normal s node
  ranked : Ranked s
  composed : ∀ a b c, s.composed.table[(a, b)]? = some c →
    s.Alive a ∧ s.Alive b ∧ ∃ n, Composes s n a b c
  joined : ∀ a b c, s.joined.table[(a, b)]? = some c → s.Alive a ∧ s.Alive b ∧ Joined s a b c
  count : s.interned + s.free.length + 3 = s.swept + s.slots.size
  swept : s.free.length ≤ s.swept

namespace Regular

theorem placed (h : Regular s) : Placed s := ⟨fun i => (h.free i).1, h.nodup, h.canon⟩

/-- Handles are reserved, or their nodes are in normal form. -/
theorem cases (h : Regular s) {node : EdgeNode L K} (hn : s.node? ef = some node) :
    ef = .identity ∧ node = .identity ∨ ef = .allTop ∧ node = .allTop ∨
      ef = .allBottom ∧ node = .allBottom ∨ 3 ≤ ef.index ∧ Normal s node := by
  obtain ⟨i⟩ := ef
  match i with
  | 0 => exact .inl ⟨rfl, Option.some.inj (hn.symm.trans h.identity)⟩
  | 1 => exact .inr (.inl ⟨rfl, Option.some.inj (hn.symm.trans h.allTop)⟩)
  | 2 => exact .inr (.inr (.inl ⟨rfl, Option.some.inj (hn.symm.trans h.allBottom)⟩))
  | n + 3 => exact .inr (.inr (.inr ⟨Nat.le_add_left .., h.normal _ _ hn (Nat.le_add_left ..)⟩))

theorem operands (h : Regular s) {node : EdgeNode L K} (hn : s.node? ef = some node) {p : EdgeRef}
    (hp : p ∈ node.operands) : s.Alive p := by
  rcases h.cases hn with ⟨-, rfl⟩ | ⟨-, rfl⟩ | ⟨-, rfl⟩ | ⟨-, hnormal⟩
  · cases hp
  · cases hp
  · cases hp
  · exact hnormal.operands hp

/-- Nodes of all shapes but the reserved ones are in normal form. -/
theorem normal_of_ne (h : Regular s) {node : EdgeNode L K} (hn : s.node? ef = some node)
    (hid : node ≠ .identity) (htop : node ≠ .allTop) (hbot : node ≠ .allBottom) :
    Normal s node := by
  rcases h.cases hn with ⟨-, he⟩ | ⟨-, he⟩ | ⟨-, he⟩ | ⟨-, hnormal⟩
  · exact absurd he hid
  · exact absurd he htop
  · exact absurd he hbot
  · exact hnormal

theorem normal_constant (h : Regular s) {c : L} (hn : s.node? ef = some (.constant c)) :
    c ≠ top ∧ c ≠ bottom :=
  h.normal_of_ne hn nofun nofun nofun

theorem normal_custom (h : Regular s) {k : K} (hn : s.node? ef = some (.custom k)) :
    Payload.constant? (L := L) k = none :=
  h.normal_of_ne hn nofun nofun nofun

theorem normal_compose (h : Regular s) (hn : s.node? ef = some (.compose a b)) :
    ∃ f g, s.node? a = some f ∧ s.node? b = some g ∧ NormalCompose a b f g :=
  h.normal_of_ne hn nofun nofun nofun

theorem normal_join (h : Regular s) {seed : L} {parts : List EdgeRef}
    (hn : s.node? ef = some (.join seed parts)) : NormalJoin s.joinLimit seed parts ∧
      ∀ p ∈ parts, ∃ node, s.node? p = some node ∧ node.IsPart :=
  h.normal_of_ne hn nofun nofun nofun

theorem eq_identity (h : Regular s) (hn : s.node? ef = some .identity) : ef = .identity := by
  rcases h.cases hn with ⟨he, -⟩ | ⟨-, hc⟩ | ⟨-, hc⟩ | ⟨-, hc⟩
  · exact he
  all_goals cases hc

theorem eq_allTop (h : Regular s) (hn : s.node? ef = some .allTop) : ef = .allTop := by
  rcases h.cases hn with ⟨-, hc⟩ | ⟨he, -⟩ | ⟨-, hc⟩ | ⟨-, hc⟩
  · cases hc
  · exact he
  all_goals cases hc

theorem eq_allBottom (h : Regular s) (hn : s.node? ef = some .allBottom) : ef = .allBottom := by
  rcases h.cases hn with ⟨-, hc⟩ | ⟨-, hc⟩ | ⟨he, -⟩ | ⟨-, hc⟩
  · cases hc
  · cases hc
  · exact he
  · cases hc

/-- A canonical node has one live copy. -/
theorem unique (h : Regular s) {node : EdgeNode L K} (hk : (kind? node).isSome)
    (ha : s.node? a = some node) (hb : s.node? b = some node) : a = b :=
  Option.some.inj (((h.canon node a).2 ⟨ha, hk⟩).symm.trans ((h.canon node b).2 ⟨hb, hk⟩))

/-- If all payloads are shared, no node of a regular store is stored twice. -/
theorem shaped [SharedPayloads L K] (h : Regular s) : Shaped s where
  unique e f node he hf := by
    cases node with
    | identity => rw [h.eq_identity he, h.eq_identity hf]
    | allTop => rw [h.eq_allTop he, h.eq_allTop hf]
    | allBottom => rw [h.eq_allBottom he, h.eq_allBottom hf]
    | custom k => exact h.unique (kind?_custom k) he hf
    | _ => exact h.unique rfl he hf
  ranked := h.ranked
  composed a b c hab := (h.composed a b c hab).2.2
  joined a b c hab := (h.joined a b c hab).2.2

/-- A canonical node that is stored is found. -/
theorem intern_eq (h : Regular s) {node : EdgeNode L K} (hk : (kind? node).isSome)
    (hn : s.node? ef = some node) : s.intern node = (ef, s) := by
  rw [EdgeStore.intern, (h.canon node ef).2 ⟨hn, hk⟩]

/-- Walks from a live handle end after as many levels as the handle is high. -/
theorem within (h : Regular s) {n : Nat} (ha : s.Alive ef) (hlt : s.height ef < n) :
    Within s n ef := by
  induction n generalizing ef with
  | zero => cases hlt
  | succ n ih =>
    obtain ⟨node, hn⟩ := ha
    refine ⟨node, hn, fun p hp => ih (h.operands hn hp) ?_⟩
    have := h.ranked ef node p hn hp
    omega

/-- Freed slots are used again before new ones, so a handle is below the number of functions that
were ever stored, the reserved ones included. -/
theorem index_lt (h : Regular s) (ha : s.Alive ef) : ef.index < s.interned + 3 := by
  obtain ⟨slot, hslot⟩ := ha.slot
  have hlt := (Array.getElem?_eq_some_iff.1 hslot).1
  have hcount := h.count
  have hswept := h.swept
  omega

/-- The free slots and the slots of live handles fit into the store. -/
theorem length_le (h : Regular s) {efs : List EdgeRef} (hnodup : efs.Nodup)
    (halive : ∀ ef ∈ efs, s.Alive ef) : efs.length + s.free.length ≤ s.slots.size := by
  have hnodup : (efs.map (·.index) ++ s.free).Nodup := by
    refine List.Nodup.append (hnodup.map fun p q hpq => ?_) h.nodup fun i hi hfree => ?_
    · cases p
      cases q
      exact congrArg _ hpq
    · obtain ⟨ef, hef, rfl⟩ := List.mem_map.1 hi
      obtain ⟨slot, hslot⟩ := (halive ef hef).slot
      rw [(h.free _).1 hfree] at hslot
      cases hslot
  have hsub : efs.map (·.index) ++ s.free ⊆ List.range s.slots.size := by
    intro i hi
    rw [List.mem_range]
    rcases List.mem_append.1 hi with hi | hi
    · obtain ⟨ef, hef, rfl⟩ := List.mem_map.1 hi
      obtain ⟨slot, hslot⟩ := (halive ef hef).slot
      exact (Array.getElem?_eq_some_iff.1 hslot).1
    · exact (Array.getElem?_eq_some_iff.1 ((h.free i).1 hi)).1
  simpa using (List.subperm_of_subset hnodup hsub).length_le

end Regular

theorem Regular.means (h : Regular s) (ha : s.Alive ef) : ∃ φ, Means s ef φ :=
  (h.within ha (Nat.lt_succ_self _)).means

/-- Evaluation of a live handle returns what the handle means. -/
theorem Regular.eval (h : Regular s) {φ : L → L} (hφ : Means s ef φ) (v : L) :
    s.eval ef v = .ok (φ v) := by
  obtain ⟨r, hr⟩ := evalTo_total (h.within hφ.node? (Nat.lt_succ_self _)) v
  rw [EdgeStore.eval, hr, hφ.evalTo_eq hr]

/-! ## Results are alive -/

theorem ConstantAt.alive (h : Regular s) {v : L} (hc : ConstantAt s v ef) : s.Alive ef := by
  cases hc with
  | top _ => exact ⟨_, h.allTop⟩
  | bottom _ _ => exact ⟨_, h.allBottom⟩
  | node _ _ hn => exact ⟨_, hn⟩

theorem LeafAt.alive (h : Regular s) {e : EdgeFunction L K} (he : LeafAt s e ef) : s.Alive ef := by
  cases he with
  | identity => exact ⟨_, h.identity⟩
  | allTop => exact ⟨_, h.allTop⟩
  | allBottom => exact ⟨_, h.allBottom⟩
  | constant hc => exact hc.alive h
  | folded _ hc => exact hc.alive h
  | custom _ hn => exact ⟨_, hn⟩

theorem Composes.alive (h : Regular s) {n : Nat} (hc : Composes s n a b c) (ha : s.Alive a)
    (hb : s.Alive b) : s.Alive c := by
  induction n generalizing a b c with
  | zero => cases hc
  | succ n ih =>
    unfold Composes at hc
    split_ifs at hc
    · exact hc ▸ hb
    · exact hc ▸ ha
    obtain ⟨f, g, hf, hg, hc⟩ := hc
    have hops := fun p => h.operands hf (p := p)
    unfold ComposesNodes at hc
    split at hc
    · exact hc ▸ hb
    · obtain ⟨ψ, -, hc⟩ := hc
      exact hc.alive h
    split at hc
    · exact hc.alive h
    split at hc
    · obtain ⟨tail, htail, hc⟩ := hc
      exact ih hc (hops _ (by simp [EdgeNode.operands]))
        (ih htail (hops _ (by simp [EdgeNode.operands])) hb)
    · exact ⟨_, hc⟩

theorem partsOf_isAlive (h : Regular s) {f : EdgeNode L K} (hf : s.node? a = some f) {p : EdgeRef}
    (hp : p ∈ partsOf a f) : s.Alive p := by
  cases f with
  | constant c => cases hp
  | join seed parts => exact h.operands hf hp
  | _ => exact ⟨_, List.mem_singleton.1 hp ▸ hf⟩

/-- The parts of an operand other than the bounds are parts of a join. -/
theorem partsOf_isPart (h : Regular s) {f : EdgeNode L K} (hf : s.node? a = some f)
    (htop : a ≠ .allTop) (hbot : a ≠ .allBottom) {p : EdgeRef} (hp : p ∈ partsOf a f) :
    p ≠ .allTop ∧ p ≠ .allBottom ∧ ∃ node, s.node? p = some node ∧ node.IsPart := by
  cases f with
  | constant c => cases hp
  | join seed parts =>
    obtain ⟨hn, hparts⟩ := h.normal_join hf
    exact ⟨fun he => hn.allTop (he ▸ hp), fun he => hn.allBottom (he ▸ hp), hparts p hp⟩
  | allTop => exact absurd (h.eq_allTop hf) htop
  | allBottom => exact absurd (h.eq_allBottom hf) hbot
  | _ =>
    obtain rfl := List.mem_singleton.1 hp
    exact ⟨htop, hbot, _, hf, rfl, nofun⟩

theorem Made.alive (h : Regular s) {seed : L} {parts : List EdgeRef}
    (hparts : ∀ p ∈ parts, s.Alive p) (hc : Made s seed parts c) : s.Alive c := by
  rcases hc.cases with ⟨rfl, -⟩ | ⟨-, -, hat⟩ | ⟨-, rfl⟩ | ⟨hn, -, -⟩
  · exact ⟨_, h.allBottom⟩
  · exact hat.alive h
  · exact hparts c List.mem_cons_self
  · exact ⟨_, hn⟩

theorem Joined.alive (h : Regular s) (hc : Joined s a b c) (ha : s.Alive a) (hb : s.Alive b) :
    s.Alive c := by
  unfold Joined at hc
  split_ifs at hc
  · exact hc ▸ ha
  · exact hc ▸ hb
  · exact hc ▸ ha
  · exact hc ▸ ⟨_, h.allBottom⟩
  obtain ⟨f, g, hf, hg, hc⟩ := hc
  split at hc
  · exact hc.alive h
  · refine hc.alive h fun p hp => ?_
    rcases List.mem_append.1 (mem_sortParts.1 hp) with hp | hp
    · exact partsOf_isAlive h hf hp
    · exact partsOf_isAlive h hg hp

/-! ## Remembering -/

theorem Regular.remember (h : Regular s) {composed joined : Memo (EdgeRef × EdgeRef) EdgeRef}
    (hc : ∀ a b c, composed.table[(a, b)]? = some c →
      s.Alive a ∧ s.Alive b ∧ ∃ n, Composes s n a b c)
    (hj : ∀ a b c, joined.table[(a, b)]? = some c → s.Alive a ∧ s.Alive b ∧ Joined s a b c) :
    Regular { s with composed, joined } := by
  have hle := le_remember s composed joined
  exact {
    identity := h.identity
    allTop := h.allTop
    allBottom := h.allBottom
    free := h.free
    nodup := h.nodup
    canon := h.canon
    normal := fun ef node hn hlt => (h.normal ef node hn hlt).mono hle
    ranked := h.ranked
    composed := fun a b c hab => by
      obtain ⟨ha, hb, n, hn⟩ := hc a b c hab
      exact ⟨ha, hb, n, hn.mono hle⟩
    joined := fun a b c hab => by
      obtain ⟨ha, hb, hn⟩ := hj a b c hab
      exact ⟨ha, hb, hn.mono hle⟩
    count := h.count
    swept := h.swept }

theorem Regular.remember_composed (h : Regular s) (ha : s.Alive a) (hb : s.Alive b) {n : Nat}
    (hc : Composes s n a b c) : Regular { s with composed := s.composed.insert (a, b) c } := by
  refine h.remember (fun a' b' c' hab => ?_) h.joined
  rw [Memo.insert, getElem?_insert_eq] at hab
  split at hab
  · next heq =>
    obtain ⟨rfl, rfl⟩ := Prod.mk.inj heq
    obtain rfl := Option.some.inj hab
    exact ⟨ha, hb, n, hc⟩
  · exact h.composed a' b' c' hab

theorem Regular.remember_joined (h : Regular s) (ha : s.Alive a) (hb : s.Alive b)
    (hc : Joined s a b c) : Regular { s with joined := s.joined.insert (a, b) c } := by
  refine h.remember h.composed fun a' b' c' hab => ?_
  rw [Memo.insert, getElem?_insert_eq] at hab
  split at hab
  · next heq =>
    obtain ⟨rfl, rfl⟩ := Prod.mk.inj heq
    obtain rfl := Option.some.inj hab
    exact ⟨ha, hb, hc⟩
  · exact h.joined a' b' c' hab

theorem Regular.forget (h : Regular s) : Regular s.forget := by
  refine h.remember (fun a b c hc => ?_) fun a b c hc => ?_ <;> simp [Memo.clear] at hc

/-- A set of handles that is closed under operands and whose nodes are kept. -/
theorem Regular.sameTree (h : Regular s) {P : EdgeRef → Prop}
    (hP : ∀ ef node, P ef → s.node? ef = some node →
      s'.node? ef = some node ∧ ∀ p ∈ node.operands, P p)
    (ha : s.Alive ef) (hef : P ef) : SameTree s s' ef := by
  obtain ⟨n, hwithin⟩ : ∃ n, Within s n ef := ⟨_, h.within ha (Nat.lt_succ_self _)⟩
  induction n generalizing ef with
  | zero => cases hwithin
  | succ n ih =>
    obtain ⟨node, hn, hops⟩ := hwithin
    obtain ⟨hn', hop⟩ := hP ef node hef hn
    exact .node hn hn' fun p hp => ih (h.operands hn hp) (hop p hp) (hops p hp)

theorem Regular.sameTree_of_le (h : Regular s) (hle : s ≤ s') (ha : s.Alive ef) :
    SameTree s s' ef :=
  h.sameTree (P := fun _ => True) (fun _ _ _ hn => ⟨hle.1 _ _ hn, fun _ _ => trivial⟩) ha trivial

theorem Regular.sameTree_of_keeps (h : Regular s) {freed : Nat → Prop} (hk : Keeps freed s s')
    (ha : s.Alive ef) (hef : ¬ freed ef.index) : SameTree s s' ef :=
  h.sameTree (P := fun ef => ¬ freed ef.index) (fun ef node hef hn =>
    ⟨(hk.node? ef hef).trans hn, hk.operands ef node hef hn⟩) ha hef

/-! ## Storing a node -/

theorem regular_withLimit (limit : Nat) : Regular (withLimit limit : EdgeStore L K) := by
  have hnode : ∀ {ef node}, (withLimit limit : EdgeStore L K).node? ef = some node →
      ef.index < 3 ∧ (node = .identity ∨ node = .allTop ∨ node = .allBottom) := by
    rintro ⟨i⟩ node h
    obtain ⟨slot, hslot, rfl⟩ := node?_eq_some.1 h
    match i with
    | 0 => exact ⟨by decide, .inl (by cases hslot; rfl)⟩
    | 1 => exact ⟨by decide, .inr (.inl (by cases hslot; rfl))⟩
    | 2 => exact ⟨by decide, .inr (.inr (by cases hslot; rfl))⟩
    | n + 3 => simp [withLimit] at hslot
  exact {
    identity := rfl
    allTop := rfl
    allBottom := rfl
    free := fun i => by
      match i with
      | 0 | 1 | 2 => simp [withLimit]
      | n + 3 => simp [withLimit]
    nodup := .nil
    canon := fun node ef => by
      have hnone : (withLimit limit : EdgeStore L K).canon.find? node = none := by
        unfold KindedCanon.find?
        split <;> rfl
      rw [hnone]
      refine ⟨nofun, fun ⟨hn, hkind⟩ => ?_⟩
      rcases (hnode hn).2 with rfl | rfl | rfl <;> cases hkind
    normal := fun ef node hn hge => absurd (hnode hn).1 (Nat.not_lt.2 hge)
    ranked := fun ef node p hn hp => by
      rcases (hnode hn).2 with rfl | rfl | rfl <;> cases hp
    composed := fun _ _ _ h => by cases h
    joined := fun _ _ _ h => by cases h
    count := rfl
    swept := Nat.le_refl 0 }

variable [Std.TransOrd L] [Std.LawfulEqOrd L] [Std.TransOrd K] [Std.LawfulEqOrd K]

theorem Regular.intern (h : Regular s) {node : EdgeNode L K} (hok : Normal s node)
    (hi : s.intern node = (ef, s')) : Regular s' ∧ s ≤ s' ∧ s'.node? ef = some node := by
  rcases intern_cases h.placed hi with ⟨rfl, hn⟩ | ⟨t, ha, rfl, hplaced⟩
  · exact ⟨h, le_refl _, hn⟩
  obtain ⟨hnew, hnode, -, -⟩ := allocate_spec h.placed.free h.nodup ha
  obtain ⟨hfree, hcount, hless, hswept⟩ := allocate_free h.free h.nodup ha
  obtain ⟨hlimit, hcomposed, hjoined, -, -⟩ := allocate_frame ha
  have hheight := allocate_height h.placed.free ha
  -- The new handle was not alive, so it is neither a reserved handle nor an operand.
  have hold : ∀ {p}, s.Alive p → p ≠ ef := by
    rintro p ⟨m, hm⟩ rfl
    rw [hnew] at hm
    cases hm
  generalize hs' : ({ t with
    canon := (s.canon.insert node ef).2, interned := s.interned + 1 } : EdgeStore L K) = s'
    at hplaced
  have hnode' : ∀ ef', s'.node? ef' = if ef' = ef then some node else s.node? ef' := by
    subst hs'
    exact hnode
  have hle : s ≤ s' := by
    subst hs'
    refine ⟨fun ef' node' he => ?_, hlimit, Nat.le_succ _⟩
    rw [hnode', if_neg (hold ⟨_, he⟩), he]
  refine ⟨?_, hle, (hnode' ef).trans (if_pos rfl)⟩
  exact {
    identity := hle.1 _ _ h.identity
    allTop := hle.1 _ _ h.allTop
    allBottom := hle.1 _ _ h.allBottom
    free := by subst hs'; exact hfree
    nodup := hplaced.nodup
    canon := hplaced.canon
    normal := fun ef' node' hn hlt => by
      rw [hnode'] at hn
      split at hn
      · rw [← Option.some.inj hn]
        exact hok.mono hle
      · exact (h.normal ef' node' hn hlt).mono hle
    ranked := fun x m p hx hp => by
      have hheight' : ∀ e, s'.height e = if e = ef then s.heightOf node else s.height e := by
        subst hs'
        exact hheight
      rw [hnode'] at hx
      rw [hheight', hheight']
      split at hx
      · next heq =>
        obtain rfl := Option.some.inj hx
        rw [if_pos heq, if_neg (hold (hok.operands hp))]
        exact lt_heightOf hp
      · next hne =>
        rw [if_neg hne, if_neg (hold (h.operands hx hp))]
        exact h.ranked x m p hx hp
    composed := fun a b c hc => by
      subst hs'
      change t.composed.table[(a, b)]? = _ at hc
      rw [hcomposed] at hc
      obtain ⟨ha, hb, n, hn⟩ := h.composed a b c hc
      exact ⟨ha.mono hle, hb.mono hle, n, hn.mono hle⟩
    joined := fun a b c hc => by
      subst hs'
      change t.joined.table[(a, b)]? = _ at hc
      rw [hjoined] at hc
      obtain ⟨ha, hb, hn⟩ := h.joined a b c hc
      exact ⟨ha.mono hle, hb.mono hle, hn.mono hle⟩
    count := by
      subst hs'
      have := h.count
      simp only [hswept]
      omega
    swept := by
      subst hs'
      rw [hswept]
      exact Nat.le_trans hless h.swept }

theorem Regular.constant (h : Regular s) {v : L} (hc : s.constant v = (ef, s')) :
    Regular s' ∧ s ≤ s' ∧ ConstantAt s' v ef := by
  unfold EdgeStore.constant at hc
  split at hc
  · next htop =>
    obtain ⟨rfl, rfl⟩ := Prod.mk.inj hc
    exact ⟨h, le_refl _, .top (by simpa [isTop] using htop)⟩
  next htop =>
  split at hc
  · next hbot =>
    obtain ⟨rfl, rfl⟩ := Prod.mk.inj hc
    exact ⟨h, le_refl _, .bottom (by simpa [isTop] using htop) (by simpa [isBottom] using hbot)⟩
  next hbot =>
  have htop : v ≠ top := by simpa [isTop] using htop
  have hbot : v ≠ bottom := by simpa [isBottom] using hbot
  have hok : Normal s (.constant v) := ⟨htop, hbot⟩
  obtain ⟨h', hle, hn⟩ := h.intern hok hc
  exact ⟨h', hle, .node htop hbot hn⟩

theorem Regular.leaf (h : Regular s) {e : EdgeFunction L K} (he : s.leaf e = (ef, s')) :
    Regular s' ∧ s ≤ s' ∧ LeafAt s' e ef := by
  cases e with
  | identity =>
    obtain ⟨rfl, rfl⟩ := Prod.mk.inj he
    exact ⟨h, le_refl _, .identity⟩
  | allTop =>
    obtain ⟨rfl, rfl⟩ := Prod.mk.inj he
    exact ⟨h, le_refl _, .allTop⟩
  | allBottom =>
    obtain ⟨rfl, rfl⟩ := Prod.mk.inj he
    exact ⟨h, le_refl _, .allBottom⟩
  | constant c =>
    obtain ⟨h', hle, hc⟩ := h.constant he
    exact ⟨h', hle, .constant hc⟩
  | custom k =>
    simp only [EdgeStore.leaf] at he
    split at he
    · next c hc =>
      obtain ⟨h', hle, hat⟩ := h.constant he
      exact ⟨h', hle, .folded hc hat⟩
    · next hnone =>
      have hok : Normal s (.custom k) := hnone
      obtain ⟨h', hle, hn⟩ := h.intern hok he
      exact ⟨h', hle, .custom hnone hn⟩

/-! ## Composition -/

/-- The step of a composition returns if the compositions of a re-association do. -/
theorem Regular.composeWith
    {compose : EdgeStore L K → EdgeRef → EdgeRef → Except Fault (EdgeRef × EdgeStore L K)}
    (h : Regular s) (haid : a ≠ .identity) (hbid : b ≠ .identity) {f g : EdgeNode L K}
    (hf : s.node? a = some f) (hg : s.node? b = some g)
    (hcompose : ∀ {t x y}, x ∈ f.operands → s ≤ t → Regular t → t.Alive y →
      ∃ c t', compose t x y = .ok (c, t') ∧ Regular t' ∧ t ≤ t' ∧ ∃ m, Composes t' m x y c) :
    ∃ c s', composeWith compose s a b = .ok (c, s') ∧ Regular s' ∧ s ≤ s' ∧
      ∃ m, ComposesNodes s' (Composes s' m) a b f g c := by
  rw [composeWith_eq hf hg]
  unfold ComposesNodes
  cases hgc : g.constant? with
  | some v => exact ⟨b, s, rfl, h, le_refl _, 0, rfl⟩
  | none =>
  cases hfc : f.constant? with
  | some v =>
    obtain ⟨ψ, hψ⟩ := h.means ⟨g, hg⟩
    obtain ⟨ht, hle, hat⟩ := h.constant (v := ψ v) rfl
    simp only [h.eval hψ v, ok_bind]
    exact ⟨_, _, rfl, ht, hle, 0, ψ, hψ.mono hle, hat⟩
  | none =>
  simp only
  cases hk : foldCompose f g with
  | some k =>
    obtain ⟨ht, hle, hat⟩ := h.leaf (e := .custom k) rfl
    exact ⟨_, _, rfl, ht, hle, 0, hat⟩
  | none =>
  by_cases hnested : ∃ x y, f = .compose x y
  · -- Compositions are nested to the right.
    obtain ⟨x, y, rfl⟩ := hnested
    have hy : y ∈ (EdgeNode.compose x y : EdgeNode L K).operands := by simp [EdgeNode.operands]
    have hx : x ∈ (EdgeNode.compose x y : EdgeNode L K).operands := by simp [EdgeNode.operands]
    obtain ⟨tail, u, htail, hu, hle, m, hm⟩ := hcompose hy (le_refl _) h ⟨g, hg⟩
    have halive := hm.alive hu ((h.operands hf hy).mono hle) ⟨g, hle.1 _ _ hg⟩
    obtain ⟨c, t, hc, ht, hle', m', hm'⟩ := hcompose hx hle hu halive
    simp only [htail, hc, ok_bind]
    refine ⟨c, t, rfl, ht, le_trans hle hle', max m m', tail, ?_, ?_⟩
    · exact hm.imp hle' (Nat.le_max_left ..)
    · exact hm'.imp (le_refl _) (Nat.le_max_right ..)
  · have hright : ∀ x y, f ≠ .compose x y := fun x y he => hnested ⟨x, y, he⟩
    have hok : Normal s (.compose a b) := ⟨f, g, hf, hg, haid, hbid, hfc, hgc, hk, hright⟩
    obtain ⟨ht, hle, hn⟩ := h.intern hok rfl
    cases f with
    | compose x y => exact absurd rfl (hright x y)
    | _ => exact ⟨_, _, rfl, ht, hle, 0, hn⟩

/-- A composition of live handles returns, and has the shape that its operands determine. -/
theorem Regular.composeTo {n : Nat} (h : Regular s) (ha : Within s n a) (hb : s.Alive b) :
    ∃ c s', composeTo n s a b = .ok (c, s') ∧ Regular s' ∧ s ≤ s' ∧ ∃ m, Composes s' m a b c := by
  induction n generalizing s a b with
  | zero => cases ha
  | succ n ih =>
    by_cases haid : a = .identity
    · rw [EdgeStore.composeTo, if_pos haid]
      exact ⟨_, _, rfl, h, le_refl _, 1, by simp [Composes, haid]⟩
    by_cases hbid : b = .identity
    · rw [EdgeStore.composeTo, if_neg haid, if_pos hbid]
      exact ⟨_, _, rfl, h, le_refl _, 1, by simp [Composes, haid, hbid]⟩
    rw [composeTo_eq haid hbid, Memo.lookup]
    cases hknown : s.composed.table[(a, b)]? with
    | some ef =>
      obtain ⟨-, -, m, hm⟩ := h.composed a b _ hknown
      exact ⟨_, _, rfl, h.remember h.composed h.joined, le_remember .., m, hm.mono (le_remember ..)⟩
    | none =>
      simp only
      generalize hs₁ : ({ s with
        composed := { s.composed with misses := s.composed.misses + 1 } } : EdgeStore L K) = s₁
      have hle₁ : s ≤ s₁ := hs₁ ▸ le_remember ..
      have h₁ : Regular s₁ := hs₁ ▸ h.remember h.composed h.joined
      obtain ⟨f, hf, hops⟩ := ha.mono hle₁
      obtain ⟨g, hg⟩ := hb.mono hle₁
      obtain ⟨c, t, hc, ht, hle, m, hm⟩ := h₁.composeWith haid hbid hf hg
        fun hx hle ht hy => ih ht ((hops _ hx).mono hle) hy
      -- Whatever the composition is, it is remembered.
      have hcomp : Composes t (m + 1) a b c := by
        rw [Composes, if_neg haid, if_neg hbid]
        exact ⟨f, g, hle.1 _ _ hf, hle.1 _ _ hg, hm⟩
      simp only [hc, ok_bind]
      exact ⟨_, _, rfl, ht.remember_composed ⟨f, hle.1 _ _ hf⟩ ⟨g, hle.1 _ _ hg⟩ hcomp,
        le_trans (le_trans hle₁ hle) (le_remember ..), m + 1, hcomp.mono (le_remember ..)⟩

theorem Regular.compose (h : Regular s) (ha : s.Alive a) (hb : s.Alive b) :
    ∃ c s', s.compose a b = .ok (c, s') ∧ Regular s' ∧ s ≤ s' ∧ ∃ m, Composes s' m a b c :=
  h.composeTo (h.within ha (Nat.lt_succ_self _)) hb

/-! ## Join -/

theorem Regular.makeJoin (h : Regular s) {seed : L} {parts : List EdgeRef} (hp : NormalParts parts)
    (hparts : ∀ p ∈ parts, ∃ node, s.node? p = some node ∧ node.IsPart)
    (hc : s.makeJoin seed parts = (c, s')) : Regular s' ∧ s ≤ s' ∧ Made s' seed parts c := by
  unfold EdgeStore.makeJoin at hc
  unfold Made
  split at hc
  · next hbot =>
    obtain ⟨rfl, rfl⟩ := Prod.mk.inj hc
    exact ⟨h, le_refl _, by rw [if_pos hbot]⟩
  next hbot =>
  rw [if_neg hbot]
  cases parts with
  | nil => exact h.constant hc
  | cons p rest =>
    change Regular s' ∧ s ≤ s' ∧ (if rest.isEmpty && isTop seed then c = p
      else if s'.joinLimit < (p :: rest).length then c = .allBottom
      else s'.node? c = some (.join seed (p :: rest)))
    by_cases hsingle : (rest.isEmpty && isTop seed) = true
    · simp only [hsingle, if_true] at hc
      obtain ⟨rfl, rfl⟩ := Prod.mk.inj hc
      exact ⟨h, le_refl _, by rw [if_pos hsingle]⟩
    simp only [hsingle, if_false, Bool.false_eq_true] at hc
    rw [if_neg hsingle]
    split at hc
    · next hlimit =>
      obtain ⟨rfl, rfl⟩ := Prod.mk.inj hc
      exact ⟨h, le_refl _, by rw [if_pos hlimit]⟩
    next hlimit =>
    have hnormal : NormalJoin s.joinLimit seed (p :: rest) := by
      refine ⟨hp, List.cons_ne_nil _ _, by simpa [isBottom] using hbot, fun hlen htop => ?_,
        Nat.le_of_not_lt hlimit⟩
      refine hsingle (Bool.and_eq_true_iff.2 ⟨?_, by simpa [isTop] using htop⟩)
      rw [List.isEmpty_iff]
      exact List.eq_nil_of_length_eq_zero (by simpa using hlen)
    have hok : Normal s (.join seed (p :: rest)) := ⟨hnormal, hparts⟩
    obtain ⟨ht, hle, hn⟩ := h.intern hok hc
    refine ⟨ht, hle, ?_⟩
    rw [hle.2.1, if_neg hlimit]
    exact hn

theorem Regular.joinOrdered (h : Regular s) (hne : a ≠ b) (ha : s.Alive a) (hb : s.Alive b) :
    ∃ c s', s.joinOrdered a b = .ok (c, s') ∧ Regular s' ∧ s ≤ s' ∧ Joined s' a b c := by
  unfold EdgeStore.joinOrdered
  split
  · next hatop => exact ⟨_, _, rfl, h, le_refl _, by rw [Joined, if_neg hne, if_pos hatop]⟩
  next hatop =>
  split
  · next hbtop =>
    exact ⟨_, _, rfl, h, le_refl _, by rw [Joined, if_neg hne, if_neg hatop, if_pos hbtop]⟩
  next hbtop =>
  split
  · next hbot =>
    refine ⟨_, _, rfl, h, le_refl _, ?_⟩
    rw [Joined, if_neg hne, if_neg hatop, if_neg hbtop, if_pos hbot]
  next hbot =>
  obtain ⟨hab, hbb⟩ := not_or.1 hbot
  obtain ⟨f, hf⟩ := ha
  obtain ⟨g, hg⟩ := hb
  rw [node_eq_ok.2 hf, ok_bind, node_eq_ok.2 hg, ok_bind]
  cases hk : foldJoin f g with
  | some k =>
    obtain ⟨ht, hle, hat⟩ := h.leaf (e := .custom k) rfl
    refine ⟨_, _, rfl, ht, hle, ?_⟩
    rw [Joined, if_neg hne, if_neg hatop, if_neg hbtop, if_neg hbot]
    refine ⟨f, g, hle.1 _ _ hf, hle.1 _ _ hg, ?_⟩
    simp only [hk]
    exact hat
  | none =>
    have hpart : ∀ p ∈ sortParts (partsOf a f ++ partsOf b g),
        p ≠ .allTop ∧ p ≠ .allBottom ∧ ∃ node, s.node? p = some node ∧ node.IsPart := by
      intro p hp
      rcases List.mem_append.1 (mem_sortParts.1 hp) with hp | hp
      · exact partsOf_isPart h hf hatop hab hp
      · exact partsOf_isPart h hg hbtop hbb hp
    have hnormal : NormalParts (sortParts (partsOf a f ++ partsOf b g)) :=
      ⟨ascending_sortParts _, fun hm => (hpart _ hm).1 rfl, fun hm => (hpart _ hm).2.1 rfl⟩
    have hok : ∀ p ∈ sortParts (partsOf a f ++ partsOf b g), ∃ node, s.node? p = some node ∧
        node.IsPart := fun p hp => (hpart p hp).2.2
    obtain ⟨ht, hle, hmade⟩ := h.makeJoin hnormal hok
      (rfl : s.makeJoin (addSeed (addSeed top f) g) _ = _)
    refine ⟨_, _, rfl, ht, hle, ?_⟩
    rw [Joined, if_neg hne, if_neg hatop, if_neg hbtop, if_neg hbot]
    refine ⟨f, g, hle.1 _ _ hf, hle.1 _ _ hg, ?_⟩
    simp only [hk]
    exact hmade

/-- A join of live handles returns, and has the shape that its operands determine. -/
theorem Regular.join (h : Regular s) (ha : s.Alive a) (hb : s.Alive b) :
    ∃ c s', s.join a b = .ok (c, s') ∧ Regular s' ∧ s ≤ s' ∧
      Joined s' (joinKey a b).1 (joinKey a b).2 c := by
  unfold EdgeStore.join
  split
  · next heq =>
    subst heq
    exact ⟨_, _, rfl, h, le_refl _, by simp [joinKey, Joined]⟩
  next hne =>
  obtain ⟨ha, hb⟩ := ha.joinKey hb
  have hne : (joinKey a b).1 ≠ (joinKey a b).2 := by
    rcases joinKey_eq a b with heq | heq
    · exact heq ▸ hne
    · exact heq ▸ Ne.symm hne
  unfold Memo.lookup
  cases hknown : s.joined.table[joinKey a b]? with
  | some ef =>
    obtain ⟨-, -, hj⟩ := h.joined _ _ _ hknown
    simp only [hknown]
    exact ⟨_, _, rfl, h.remember h.composed h.joined, le_remember .., hj.mono (le_remember ..)⟩
  | none =>
    simp only [hknown]
    generalize hs₁ : ({ s with
      joined := { s.joined with misses := s.joined.misses + 1 } } : EdgeStore L K) = s₁
    have hle₁ : s ≤ s₁ := hs₁ ▸ le_remember ..
    have h₁ : Regular s₁ := hs₁ ▸ h.remember h.composed h.joined
    obtain ⟨c, t, hc, ht, hle, hj⟩ := h₁.joinOrdered hne (ha.mono hle₁) (hb.mono hle₁)
    simp only [hc, ok_bind]
    have hle' := le_trans hle₁ hle
    exact ⟨_, _, rfl, ht.remember_joined (ha.mono hle') (hb.mono hle') hj,
      le_trans hle' (le_remember ..), hj.mono (le_remember ..)⟩

/-! ## Sweeping -/

/-- Sweeping keeps a store regular, and keeps the roots. -/
theorem Regular.of_sweep (h : Regular s) {roots : List EdgeRef} {n : Nat}
    (hsweep : s.sweep roots = .ok (n, s')) :
    Regular s' ∧ ∃ freed, Keeps freed s s' ∧ ∀ ef ∈ roots, ¬ freed ef.index := by
  have hreserved : ∀ ef node, ef.index < 3 → s.node? ef = some node → node.operands = [] := by
    intro ef node hlt hn
    rcases h.cases hn with ⟨-, rfl⟩ | ⟨-, rfl⟩ | ⟨-, rfl⟩ | ⟨hge, -⟩
    · rfl
    · rfl
    · rfl
    · omega
  obtain ⟨is, hs', hplaced, hkeeps, hroots, hlow⟩ := sweep_keeps h.placed hreserved hsweep
  obtain ⟨-, -, hcomposed, hjoined⟩ := freeAll_frame s.forget is
  obtain ⟨hfree, hcount, hswept⟩ := freeAll_free h.forget.free h.forget.count h.forget.swept is
  have hheight : ∀ ef : EdgeRef, ef.index ∉ is →
      (is.foldl freeSlot s.forget).height ef = s.height ef := fun ef => freeAll_height
  rw [← hs'] at hcomposed hjoined hfree hcount hswept hheight
  have hlive : ∀ {ef node}, s'.node? ef = some node → ef.index ∉ is ∧ s.node? ef = some node := by
    intro ef node hn
    have hef : ef.index ∉ is := fun hm => by
      rw [hkeeps.gone ef hm] at hn
      cases hn
    exact ⟨hef, (hkeeps.node? ef hef).symm.trans hn⟩
  have hkept : ∀ ef : EdgeRef, ef.index < 3 → s'.node? ef = s.node? ef := by
    intro ef hlt
    exact hkeeps.node? ef fun hm => absurd (hlow _ hm) (by omega)
  refine ⟨?_, _, hkeeps, hroots⟩
  exact {
    identity := (hkept _ (by decide)).trans h.identity
    allTop := (hkept _ (by decide)).trans h.allTop
    allBottom := (hkept _ (by decide)).trans h.allBottom
    free := hfree
    nodup := hplaced.nodup
    canon := hplaced.canon
    normal := fun ef node hn hge => by
      obtain ⟨hef, hn⟩ := hlive hn
      exact hkeeps.normal (hkeeps.operands ef node hef hn) (h.normal ef node hn hge)
    ranked := fun ef node p hn hp => by
      obtain ⟨hef, hn⟩ := hlive hn
      rw [hheight ef hef, hheight p (hkeeps.operands ef node hef hn p hp)]
      exact h.ranked ef node p hn hp
    composed := fun a b c hc => by
      rw [hcomposed] at hc
      simp [EdgeStore.forget, Memo.clear] at hc
    joined := fun a b c hc => by
      rw [hjoined] at hc
      simp [EdgeStore.forget, Memo.clear] at hc
    count := hcount
    swept := hswept }

/-- Sweeping with live roots returns. -/
theorem Regular.sweep (h : Regular s) {roots : List EdgeRef} (halive : ∀ ef ∈ roots, s.Alive ef) :
    ∃ n s', s.sweep roots = .ok (n, s') ∧ Regular s' ∧
      ∃ freed, Keeps freed s s' ∧ ∀ ef ∈ roots, ¬ freed ef.index := by
  obtain ⟨marked, hmark, -⟩ := foldlM_total (fun _ => True) trivial
    (f := fun marked ef => s.forget.markTo (s.forget.height ef + 1) marked ef)
    (l := roots.reverse) (b := .ofCapacity s.forget.slots.size) fun ef hef m _ => by
      have hwithin : Within s.forget (s.forget.height ef + 1) ef :=
        h.forget.within (halive ef (List.mem_reverse.1 hef)) (Nat.lt_succ_self _)
      exact (markTo_total hwithin m).imp fun _ h => ⟨h, trivial⟩
  have hsweep : s.sweep roots = .ok (((s.forget.unmarked marked).foldl freeSlot s.forget).swept -
      s.forget.swept, (s.forget.unmarked marked).foldl freeSlot s.forget) := by
    rw [EdgeStore.sweep]
    simp only [EdgeStore.mark, hmark, ok_bind]
    rfl
  exact ⟨_, _, hsweep, h.of_sweep hsweep⟩

end EdgeStore

end Tabulation
