import Tabulation.Proofs.EdgeStore.Combine

/-!
# Handles of two stores that stand for the same nodes

Two stores may keep the same functions under different handles: slots are used again after a sweep,
and the parts of a join are sorted by handle. `Twin t s e' e` says that the two handles lead to the
same nodes, up to the names of handles and the order of parts.

**Renaming.** In shaped stores a handle has at most one twin (`Twin.unique`), so twins are a partial
one-to-one renaming. It is kept while both stores grow (`Twin.mono`) and by sweeping what it does
not reach (`Twin.keeps`).

**Operations.** Twins mean the same function (`Twin.means`). Composition and join of twins give
twins (`Composes.twin`, `Joined.twin`), including the decision to widen: the number of parts of a
join does not depend on their names. So what one store does the other can follow
(`Twin.compose_run`, `Twin.join_run`).
-/

namespace Tabulation

namespace EdgeStore

variable {L K : Type}

section Parts

variable [JoinLattice L] [LawfulJoin L]

theorem below_joinParts {Φ : EdgeRef → L → L} {seed v : L} {ps : List EdgeRef} {p : EdgeRef}
    (hp : p ∈ ps) : Below (Φ p v) (joinParts seed ps Φ v) := by
  induction ps with
  | nil => cases hp
  | cons q ps ih =>
    rw [joinParts_cons]
    rcases List.mem_cons.1 hp with rfl | hp
    · exact below_join_left _ _
    · exact (ih hp).trans (below_join_right _ _)

theorem seed_below_joinParts {Φ : EdgeRef → L → L} {seed v : L} (ps : List EdgeRef) :
    Below seed (joinParts seed ps Φ v) := by
  induction ps with
  | nil => exact .refl seed
  | cons q ps ih =>
    rw [joinParts_cons]
    exact ih.trans (below_join_right _ _)

theorem joinParts_below {Φ : EdgeRef → L → L} {seed v u : L} {ps : List EdgeRef}
    (hseed : Below seed u) (hps : ∀ p ∈ ps, Below (Φ p v) u) : Below (joinParts seed ps Φ v) u := by
  induction ps with
  | nil => exact hseed
  | cons q ps ih =>
    rw [joinParts_cons]
    exact join_below (hps q List.mem_cons_self) (ih fun p hp => hps p (List.mem_cons_of_mem q hp))

end Parts

variable [Ord L] [Ord K]

/-- The two handles lead to the same nodes. -/
inductive Twin (t s : EdgeStore L K) : EdgeRef → EdgeRef → Prop
  | leaf {e' e : EdgeRef} {node : EdgeNode L K} : t.node? e' = some node → s.node? e = some node →
      node.leaf?.isSome → Twin t s e' e
  | compose {e' e f' g' f g : EdgeRef} : t.node? e' = some (.compose f' g') →
      s.node? e = some (.compose f g) → Twin t s f' f → Twin t s g' g → Twin t s e' e
  | join {e' e : EdgeRef} {seed : L} {ps' ps : List EdgeRef} (right left : EdgeRef → EdgeRef) :
      t.node? e' = some (.join seed ps') → s.node? e = some (.join seed ps) →
      (∀ p ∈ ps', right p ∈ ps) → (∀ p ∈ ps', Twin t s p (right p)) →
      (∀ p ∈ ps, left p ∈ ps') → (∀ p ∈ ps, Twin t s (left p) p) → Twin t s e' e

/-- Every part has a twin on the other side. -/
structure TwinParts (t s : EdgeStore L K) (ps' ps : List EdgeRef) : Prop where
  right : ∀ p' ∈ ps', ∃ p ∈ ps, Twin t s p' p
  left : ∀ p ∈ ps, ∃ p' ∈ ps', Twin t s p' p

/-- The two nodes are the same up to twins. -/
inductive TwinNode (t s : EdgeStore L K) : EdgeNode L K → EdgeNode L K → Prop
  | leaf {node : EdgeNode L K} : node.leaf?.isSome → TwinNode t s node node
  | compose {f' g' f g : EdgeRef} : Twin t s f' f → Twin t s g' g →
      TwinNode t s (.compose f' g') (.compose f g)
  | join {seed : L} {ps' ps : List EdgeRef} : TwinParts t s ps' ps →
      TwinNode t s (.join seed ps') (.join seed ps)

variable {t t' s s' : EdgeStore L K} {a a' b b' c c' e e' : EdgeRef}

theorem Twin.node (h : Twin t s e' e) :
    ∃ m' m, t.node? e' = some m' ∧ s.node? e = some m ∧ TwinNode t s m' m := by
  cases h with
  | leaf ht hs hleaf => exact ⟨_, _, ht, hs, .leaf hleaf⟩
  | compose ht hs hf hg => exact ⟨_, _, ht, hs, .compose hf hg⟩
  | join right left ht hs hright hright' hleft hleft' =>
    exact ⟨_, _, ht, hs, .join ⟨fun p hp => ⟨right p, hright p hp, hright' p hp⟩,
      fun p hp => ⟨left p, hleft p hp, hleft' p hp⟩⟩⟩

theorem Twin.twinNode (h : Twin t s e' e) {m' m : EdgeNode L K} (hm' : t.node? e' = some m')
    (hm : s.node? e = some m) : TwinNode t s m' m := by
  obtain ⟨x, y, hx, hy, hxy⟩ := h.node
  cases hx.symm.trans hm'
  cases hy.symm.trans hm
  exact hxy

theorem Twin.alive (h : Twin t s e' e) : t.Alive e' ∧ s.Alive e := by
  obtain ⟨m', m, hm', hm, -⟩ := h.node
  exact ⟨⟨m', hm'⟩, m, hm⟩

theorem TwinNode.twin {m' m : EdgeNode L K} (h : TwinNode t s m' m) (ht : t.node? e' = some m')
    (hs : s.node? e = some m) : Twin t s e' e := by
  cases h with
  | leaf hleaf => exact .leaf ht hs hleaf
  | compose hf hg => exact .compose ht hs hf hg
  | join hps =>
    have : Nonempty EdgeRef := ⟨.identity⟩
    choose! right hright using hps.right
    choose! left hleft using hps.left
    exact .join right left ht hs (fun p hp => (hright p hp).1) (fun p hp => (hright p hp).2)
      (fun p hp => (hleft p hp).1) fun p hp => (hleft p hp).2

theorem Twin.symm (h : Twin t s e' e) : Twin s t e e' := by
  induction h with
  | leaf ht hs hleaf => exact .leaf hs ht hleaf
  | compose ht hs _ _ ihf ihg => exact .compose hs ht ihf ihg
  | join right left ht hs hright _ hleft _ ihright ihleft =>
    exact .join left right hs ht hleft ihleft hright ihright

theorem TwinParts.symm {ps' ps : List EdgeRef} (h : TwinParts t s ps' ps) :
    TwinParts s t ps ps' where
  right p hp := (h.left p hp).imp fun _ h => ⟨h.1, h.2.symm⟩
  left p hp := (h.right p hp).imp fun _ h => ⟨h.1, h.2.symm⟩

/-- Twins stay twins while both stores grow. -/
theorem Twin.mono (h : Twin t s e' e) (ht : t ≤ t') (hs : s ≤ s') : Twin t' s' e' e := by
  induction h with
  | leaf h' h hleaf => exact .leaf (ht.1 _ _ h') (hs.1 _ _ h) hleaf
  | compose h' h _ _ ihf ihg => exact .compose (ht.1 _ _ h') (hs.1 _ _ h) ihf ihg
  | join right left h' h hright _ hleft _ ihright ihleft =>
    exact .join right left (ht.1 _ _ h') (hs.1 _ _ h) hright ihright hleft ihleft

/-- Twins stay twins if what is freed does not reach them. -/
theorem Twin.keeps {freed : Nat → Prop} (h : Twin t s e' e) (ht : Keeps freed t t')
    (hkept : ¬ freed e'.index) : Twin t' s e' e := by
  induction h with
  | leaf h' h hleaf => exact .leaf ((ht.node? _ hkept).trans h') h hleaf
  | compose h' h _ _ ihf ihg =>
    have hops := ht.operands _ _ hkept h'
    exact .compose ((ht.node? _ hkept).trans h') h (ihf (hops _ (by simp [EdgeNode.operands])))
      (ihg (hops _ (by simp [EdgeNode.operands])))
  | @join e' e seed ps' ps right left h' h hright _ hleft _ ihright ihleft =>
    have hops : ∀ p ∈ ps', ¬ freed p.index := ht.operands _ _ hkept h'
    exact .join right left ((ht.node? _ hkept).trans h') h hright
      (fun p hp => ihright p hp (hops p hp)) hleft fun p hp => ihleft p hp (hops _ (hleft p hp))

/-! ## Parts -/

theorem TwinParts.append {ps' ps qs' qs : List EdgeRef} (hp : TwinParts t s ps' ps)
    (hq : TwinParts t s qs' qs) : TwinParts t s (ps' ++ qs') (ps ++ qs) where
  right p hmem := by
    rcases List.mem_append.1 hmem with h | h
    · exact (hp.right p h).imp fun _ h => ⟨List.mem_append_left _ h.1, h.2⟩
    · exact (hq.right p h).imp fun _ h => ⟨List.mem_append_right _ h.1, h.2⟩
  left p hmem := by
    rcases List.mem_append.1 hmem with h | h
    · exact (hp.left p h).imp fun _ h => ⟨List.mem_append_left _ h.1, h.2⟩
    · exact (hq.left p h).imp fun _ h => ⟨List.mem_append_right _ h.1, h.2⟩

theorem TwinParts.sort {ps' ps : List EdgeRef} (h : TwinParts t s ps' ps) :
    TwinParts t s (sortParts ps') (sortParts ps) where
  right p hp := (h.right p (mem_sortParts.1 hp)).imp fun _ h => ⟨mem_sortParts.2 h.1, h.2⟩
  left p hp := (h.left p (mem_sortParts.1 hp)).imp fun _ h => ⟨mem_sortParts.2 h.1, h.2⟩

theorem TwinNode.partsOf {m' m : EdgeNode L K} (h : TwinNode t s m' m) (ha : Twin t s a' a) :
    TwinParts t s (partsOf a' m') (EdgeStore.partsOf a m) := by
  have hself : TwinParts t s [a'] [a] := by
    refine ⟨fun p hp => ⟨a, by simp, ?_⟩, fun p hp => ⟨a', by simp, ?_⟩⟩
    · exact List.mem_singleton.1 hp ▸ ha
    · exact List.mem_singleton.1 hp ▸ ha
  cases h with
  | leaf hleaf =>
    cases m' with
    | constant c => exact ⟨fun p hp => (by cases hp), fun p hp => (by cases hp)⟩
    | compose _ _ => cases hleaf
    | join _ _ => cases hleaf
    | _ => exact hself
  | compose _ _ => exact hself
  | join hps => exact hps

/-! ## Folded nodes -/

theorem TwinNode.constant? [JoinLattice L] {m' m : EdgeNode L K} (h : TwinNode t s m' m) :
    m'.constant? = m.constant? := by
  cases h <;> rfl

theorem TwinNode.addSeed [JoinLattice L] {m' m : EdgeNode L K} (h : TwinNode t s m' m)
    (seed : L) : addSeed seed m' = EdgeStore.addSeed seed m := by
  cases h <;> rfl

theorem TwinNode.foldCompose [Payload K L] {f' f g' g : EdgeNode L K} (hf : TwinNode t s f' f)
    (hg : TwinNode t s g' g) : foldCompose f' g' = EdgeStore.foldCompose f g := by
  cases hf <;> cases hg <;> simp [EdgeStore.foldCompose]

theorem TwinNode.foldJoin [Payload K L] {f' f g' g : EdgeNode L K} (hf : TwinNode t s f' f)
    (hg : TwinNode t s g' g) : foldJoin f' g' = EdgeStore.foldJoin f g := by
  cases hf <;> cases hg <;> simp [EdgeStore.foldJoin]

/-! ## Meaning -/

/-- Twins mean the same function. -/
theorem Twin.means [JoinLattice L] [LawfulJoin L] [Payload K L] (h : Twin t s e' e) {φ : L → L}
    (hφ : Means s e φ) : Means t e' φ := by
  induction h generalizing φ with
  | @leaf e' e node h' h hleaf =>
    obtain ⟨f, hf⟩ := Option.isSome_iff_exists.1 hleaf
    rw [hφ.eq_apply h hf]
    exact .leaf h' hf
  | compose h' h _ _ ihf ihg =>
    obtain ⟨φ₁, φ₂, hf, hg, rfl⟩ := hφ.of_compose h
    exact .compose h' (ihf hf) (ihg hg)
  | @join e' e seed ps' ps right left h' h hright _ hleft _ ihright ihleft =>
    obtain ⟨Φ, hΦ, rfl⟩ := hφ.of_join h
    have hmeans : ∀ p ∈ ps', Means t p (Φ (right p)) :=
      fun p hp => ihright p hp (hΦ _ (hright p hp))
    have heq : joinParts seed ps Φ = joinParts seed ps' fun p => Φ (right p) := by
      funext v
      refine Below.antisymm (joinParts_below (seed_below_joinParts _) fun p hp => ?_)
        (joinParts_below (seed_below_joinParts _) fun p hp => below_joinParts (hright p hp))
      -- The twin of `p` is a part on the other side, and means the same.
      rw [(ihleft p hp (hΦ p hp)).unique (hmeans _ (hleft p hp))]
      exact below_joinParts (Φ := fun p => Φ (right p)) (hleft p hp)
    rw [heq]
    exact .join _ h' hmeans

/-! ## Twins in shaped stores -/

section Shaped

variable [JoinLattice L] [Payload K L] [DecidableEq L]

/-- A regular and shaped store. -/
structure Neat (s : EdgeStore L K) : Prop extends Shaped s where
  regular : Regular s

theorem Regular.neat [LawfulJoin L] [LawfulPayload K L] [SharedPayloads L K] (h : Regular s) :
    Neat s :=
  ⟨h.shaped, h⟩

/-- A handle has at most one twin. -/
theorem Twin.unique (hs : Neat s) (h : Twin t s e' e) (k : Twin t s e' c) : e = c := by
  induction h generalizing c with
  | leaf h' h hleaf =>
    obtain ⟨m', m, hm', hm, hk⟩ := k.node
    obtain rfl := Option.some.inj (h'.symm.trans hm')
    cases hk with
    | leaf _ => exact hs.unique _ _ _ h hm
    | compose _ _ => cases hleaf
    | join _ => cases hleaf
  | compose h' h _ _ ihf ihg =>
    obtain ⟨m', m, hm', hm, hk⟩ := k.node
    obtain rfl := Option.some.inj (h'.symm.trans hm')
    cases hk with
    | leaf hleaf => cases hleaf
    | compose hf hg =>
      obtain rfl := ihf hf
      obtain rfl := ihg hg
      exact hs.unique _ _ _ h hm
  | @join e' e seed ps' ps right left h' h hright _ hleft _ ihright ihleft =>
    obtain ⟨m', m, hm', hm, hk⟩ := k.node
    obtain rfl := Option.some.inj (h'.symm.trans hm')
    cases hk with
    | leaf hleaf => cases hleaf
    | @join _ _ qs hqs =>
      -- Both lists of parts hold the twins of `ps'`, and both are ascending.
      have hmem : ∀ p, p ∈ ps ↔ p ∈ qs := fun p => by
        constructor
        · intro hp
          obtain ⟨q, hq, htwin⟩ := hqs.right (left p) (hleft p hp)
          exact ihleft p hp htwin ▸ hq
        · intro hq
          obtain ⟨p', hp', htwin⟩ := hqs.left p hq
          exact ihright p' hp' htwin ▸ hright p' hp'
      obtain rfl := ascending_ext (hs.regular.normal_join h).1.ascending
        (hs.regular.normal_join hm).1.ascending hmem
      exact hs.unique _ _ _ h hm

theorem Twin.unique_left (ht : Neat t) (h : Twin t s e' e) (k : Twin t s c e) : e' = c :=
  Twin.unique ht h.symm k.symm

/-! ## Reserved handles -/

theorem twin_identity (ht : Neat t) (hs : Neat s) : Twin t s .identity .identity :=
  .leaf ht.regular.identity hs.regular.identity rfl

theorem twin_allTop (ht : Neat t) (hs : Neat s) : Twin t s .allTop .allTop :=
  .leaf ht.regular.allTop hs.regular.allTop rfl

theorem twin_allBottom (ht : Neat t) (hs : Neat s) : Twin t s .allBottom .allBottom :=
  .leaf ht.regular.allBottom hs.regular.allBottom rfl

/-- A handle that is its own twin has no other one, on either side. -/
theorem Twin.eq_iff (ht : Neat t) (hs : Neat s) (h : Twin t s e' e) (hc : Twin t s c c) :
    e' = c ↔ e = c := by
  constructor
  · rintro rfl
    exact h.unique hs hc
  · rintro rfl
    exact h.unique_left ht hc

/-! ## Constants and leaves -/

theorem ConstantAt.twin (ht : Neat t) (hs : Neat s) {v : L} (h' : ConstantAt t v c')
    (h : ConstantAt s v c) : Twin t s c' c := by
  cases h' with
  | top hv =>
    cases h with
    | top _ => exact twin_allTop ht hs
    | bottom hne _ => exact absurd hv hne
    | node hne _ _ => exact absurd hv hne
  | bottom hne hv =>
    cases h with
    | top hv' => exact absurd hv' hne
    | bottom _ _ => exact twin_allBottom ht hs
    | node _ hne' _ => exact absurd hv hne'
  | node hne hne' hn =>
    cases h with
    | top hv => exact absurd hv hne
    | bottom _ hv => exact absurd hv hne'
    | node _ _ hn' => exact .leaf hn hn' rfl

theorem LeafAt.twin (ht : Neat t) (hs : Neat s) {f : EdgeFunction L K} (h' : LeafAt t f c')
    (h : LeafAt s f c) : Twin t s c' c := by
  cases h' with
  | identity => cases h; exact twin_identity ht hs
  | allTop => cases h; exact twin_allTop ht hs
  | allBottom => cases h; exact twin_allBottom ht hs
  | constant hc' =>
    cases h with
    | constant hc => exact hc'.twin ht hs hc
  | folded hk hc' =>
    cases h with
    | folded hk' hc =>
      obtain rfl := Option.some.inj (hk.symm.trans hk')
      exact hc'.twin ht hs hc
    | custom hk' _ => cases hk.symm.trans hk'
  | custom hk hn =>
    cases h with
    | folded hk' _ => cases hk.symm.trans hk'
    | custom _ hn' => exact .leaf hn hn' rfl

/-! ## Composition -/

/-- The compositions of twins are twins. -/
theorem Composes.twin [LawfulJoin L] (ht : Neat t) (hs : Neat s) {n m : Nat}
    (h' : Composes t n a' b' c') (h : Composes s m a b c) (ha : Twin t s a' a)
    (hb : Twin t s b' b) : Twin t s c' c := by
  induction n generalizing m a' a b' b c' c with
  | zero => cases h'
  | succ n ih =>
  cases m with
  | zero => cases h
  | succ m =>
  have haid := ha.eq_iff ht hs (twin_identity ht hs)
  have hbid := hb.eq_iff ht hs (twin_identity ht hs)
  unfold Composes at h' h
  by_cases hia : a = .identity
  · rw [if_pos (haid.2 hia)] at h'
    rw [if_pos hia] at h
    rw [h', h]
    exact hb
  rw [if_neg (mt haid.1 hia)] at h'
  rw [if_neg hia] at h
  by_cases hib : b = .identity
  · rw [if_pos (hbid.2 hib)] at h'
    rw [if_pos hib] at h
    rw [h', h]
    exact ha
  rw [if_neg (mt hbid.1 hib)] at h'
  rw [if_neg hib] at h
  obtain ⟨f', g', hf', hg', h'⟩ := h'
  obtain ⟨f, g, hf, hg, h⟩ := h
  have htf := ha.twinNode hf' hf
  have htg := hb.twinNode hg' hg
  unfold ComposesNodes at h' h
  rw [htf.constant?, htg.constant?, htf.foldCompose htg] at h'
  cases hgc : g.constant? with
  | some v =>
    simp only [hgc] at h' h
    rw [h', h]
    exact hb
  | none =>
  cases hfc : f.constant? with
  | some v =>
    simp only [hgc, hfc] at h' h
    obtain ⟨ψ', hψ', hc'⟩ := h'
    obtain ⟨ψ, hψ, hc⟩ := h
    rw [hψ'.unique (hb.means hψ)] at hc'
    exact hc'.twin ht hs hc
  | none =>
  simp only [hgc, hfc] at h' h
  cases hk : EdgeStore.foldCompose f g with
  | some k =>
    simp only [hk] at h' h
    exact h'.twin ht hs h
  | none =>
    simp only [hk] at h' h
    cases htf with
    | leaf hleaf =>
      cases f' with
      | compose _ _ => cases hleaf
      | join _ _ => cases hleaf
      | _ => exact .compose h' h ha hb
    | compose hx hy =>
      obtain ⟨tail', h₁', h₂'⟩ := h'
      obtain ⟨tail, h₁, h₂⟩ := h
      exact ih h₂' h₂ hx (ih h₁' h₁ hy hb)
    | join _ => exact .compose h' h ha hb

/-! ## Join -/

theorem TwinParts.length_le (ht : Neat t) {ps' ps : List EdgeRef} (h : TwinParts t s ps' ps)
    (hnodup : ps'.Nodup) : ps'.length ≤ ps.length := by
  have : Nonempty EdgeRef := ⟨.identity⟩
  choose! f hmem htwin using h.right
  have hinj : (ps'.map f).Nodup := hnodup.map_on fun p hp q hq heq =>
    (htwin p hp).unique_left ht (heq ▸ htwin q hq)
  have hsub : ps'.map f ⊆ ps := fun q hq => by
    obtain ⟨p, hp, rfl⟩ := List.mem_map.1 hq
    exact hmem p hp
  have := (List.subperm_of_subset hinj hsub).length_le
  rwa [List.length_map] at this

/-- Twin lists have the same number of parts. -/
theorem TwinParts.length_eq (ht : Neat t) (hs : Neat s) {ps' ps : List EdgeRef}
    (h : TwinParts t s ps' ps) (hnodup' : ps'.Nodup) (hnodup : ps.Nodup) :
    ps'.length = ps.length :=
  Nat.le_antisymm (h.length_le ht hnodup') (h.symm.length_le hs hnodup)

/-- The joins of a seed with twin parts are twins. -/
theorem Made.twin (ht : Neat t) (hs : Neat s) (hlimit : t.joinLimit = s.joinLimit) {seed : L}
    {ps' ps : List EdgeRef} (h' : Made t seed ps' c') (h : Made s seed ps c)
    (hps : TwinParts t s ps' ps) (hlen : ps'.length = ps.length) : Twin t s c' c := by
  unfold Made at h' h
  split at h'
  · next hbot =>
    rw [if_pos hbot] at h
    rw [h', h]
    exact twin_allBottom ht hs
  next hbot =>
  rw [if_neg hbot] at h
  cases ps' with
  | nil =>
    obtain rfl := List.eq_nil_of_length_eq_zero hlen.symm
    exact h'.twin ht hs h
  | cons p' rest' =>
  cases ps with
  | nil => cases hlen
  | cons p rest =>
  have hempty : rest'.isEmpty = rest.isEmpty := by
    simp only [List.length_cons, Nat.add_right_cancel_iff] at hlen
    rw [Bool.eq_iff_iff, List.isEmpty_iff, List.isEmpty_iff, ← List.length_eq_zero_iff, hlen,
      List.length_eq_zero_iff]
  simp only [hempty, hlen, hlimit] at h' h
  split at h'
  · next hsingle =>
    rw [if_pos hsingle] at h
    obtain rfl := List.isEmpty_iff.1 (Bool.and_eq_true_iff.1 hsingle).1
    obtain ⟨q, hq, htwin⟩ := hps.right p' List.mem_cons_self
    rw [h', h, ← List.mem_singleton.1 hq]
    exact htwin
  next hsingle =>
  rw [if_neg hsingle] at h
  split at h'
  · next hlim =>
    rw [if_pos hlim] at h
    rw [h', h]
    exact twin_allBottom ht hs
  · next hlim =>
    rw [if_neg hlim] at h
    exact TwinNode.twin (.join hps) h' h

/-- The joins of twins are twins. -/
theorem Joined.twin (ht : Neat t) (hs : Neat s) (hlimit : t.joinLimit = s.joinLimit)
    (h' : Joined t a' b' c') (h : Joined s a b c) (ha : Twin t s a' a) (hb : Twin t s b' b) :
    Twin t s c' c := by
  have hab : a' = b' ↔ a = b :=
    ⟨fun heq => ha.unique hs (heq ▸ hb), fun heq => ha.unique_left ht (heq ▸ hb)⟩
  have hat := ha.eq_iff ht hs (twin_allTop ht hs)
  have hbt := hb.eq_iff ht hs (twin_allTop ht hs)
  have hbot : a' = .allBottom ∨ b' = .allBottom ↔ a = .allBottom ∨ b = .allBottom :=
    or_congr (ha.eq_iff ht hs (twin_allBottom ht hs)) (hb.eq_iff ht hs (twin_allBottom ht hs))
  unfold Joined at h' h
  simp only [hab, hat, hbt, hbot] at h'
  split_ifs at h' h with h₁ h₂ h₃ h₄
  · rw [h', h]
    exact ha
  · rw [h', h]
    exact hb
  · rw [h', h]
    exact ha
  · rw [h', h]
    exact twin_allBottom ht hs
  obtain ⟨f', g', hf', hg', h'⟩ := h'
  obtain ⟨f, g, hf, hg, h⟩ := h
  have htf := ha.twinNode hf' hf
  have htg := hb.twinNode hg' hg
  rw [htf.foldJoin htg] at h'
  cases hk : EdgeStore.foldJoin f g with
  | some k =>
    simp only [hk] at h' h
    exact h'.twin ht hs h
  | none =>
    simp only [hk] at h' h
    rw [htf.addSeed, htg.addSeed] at h'
    have hparts := ((htf.partsOf ha).append (htg.partsOf hb)).sort
    exact h'.twin ht hs hlimit h hparts (hparts.length_eq ht hs
      (nodup_of_ascending (ascending_sortParts _)) (nodup_of_ascending (ascending_sortParts _)))

/-! ## Operations -/

section Operations

variable [Std.TransOrd L] [Std.LawfulEqOrd L] [Std.TransOrd K] [Std.LawfulEqOrd K] [LawfulJoin L]
  [LawfulPayload K L] [SharedPayloads L K] {φ ψ : L → L}

/-- Twins have twin compositions. -/
theorem Twin.compose_run (ht : Regular t) (hs : Regular s) (ha : Twin t s a' a)
    (hb : Twin t s b' b) :
    ∃ c' t' c s', t.compose a' b' = .ok (c', t') ∧ s.compose a b = .ok (c, s') ∧ Regular t' ∧
      t ≤ t' ∧ Regular s' ∧ s ≤ s' ∧ Twin t' s' c' c := by
  obtain ⟨ha', ha₀⟩ := ha.alive
  obtain ⟨hb', hb₀⟩ := hb.alive
  obtain ⟨c, s', hc, hs', hle, m, hm⟩ := hs.compose ha₀ hb₀
  obtain ⟨c', t', hc', ht', hle', n, hn⟩ := ht.compose ha' hb'
  exact ⟨c', t', c, s', hc', hc, ht', hle', hs', hle,
    hn.twin ht'.neat hs'.neat hm (ha.mono hle' hle) (hb.mono hle' hle)⟩

/-- Twins have twin joins. -/
theorem Twin.join_run (ht : Regular t) (hs : Regular s) (hlimit : t.joinLimit = s.joinLimit)
    (ha : Twin t s a' a) (hb : Twin t s b' b) :
    ∃ c' t' c s', t.join a' b' = .ok (c', t') ∧ s.join a b = .ok (c, s') ∧ Regular t' ∧ t ≤ t' ∧
      Regular s' ∧ s ≤ s' ∧ Twin t' s' c' c := by
  obtain ⟨ha', ha₀⟩ := ha.alive
  obtain ⟨hb', hb₀⟩ := hb.alive
  obtain ⟨c, s', hc, hs', hle, hj⟩ := hs.join ha₀ hb₀
  obtain ⟨c', t', hc', ht', hle', hj'⟩ := ht.join ha' hb'
  have hlimit' : t'.joinLimit = s'.joinLimit := by rw [hle'.2.1, hle.2.1, hlimit]
  exact ⟨c', t', c, s', hc', hc, ht', hle', hs', hle, hj'.of_joinKey.twin ht'.neat hs'.neat hlimit'
    hj.of_joinKey (ha.mono hle' hle) (hb.mono hle' hle)⟩

end Operations

end Shaped

end EdgeStore

end Tabulation
