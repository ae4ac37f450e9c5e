import Tabulation.Proofs.EdgeStore.Regular

/-!
# Composition and join are what they say

The shape of a result decides what it means, so nothing has to be known about the moment at which a
remembered result was made. What a result means needs a lawful lattice and lawful payloads, which
functions meet in it does not.

- `Composes.means`: a handle with the shape of a composition means the composition.
- `Joined.means`: a handle with the shape of a join means the pointwise join, unless more functions
  meet in it than the limit allows. `parts` are the functions that a handle contributes.
- `Joined.joins`: which joins absorb the identity, and that absorbing changes no handle.

**Remembered joins.** Storing nodes and remembering compositions change no remembered join, and a
join that is made is remembered, so `KeepsJoins` holds. As long as the limit is not exceeded, all of
them are pointwise.
-/

namespace Tabulation

namespace EdgeStore

variable {L K : Type} [Ord L] [Ord K] {s s' : EdgeStore L K} {a b c ef : EdgeRef}

/-! ## Parts and the identity -/

/-- The functions other than constants that the handle contributes to a join. -/
def parts (s : EdgeStore L K) (ef : EdgeRef) : Finset EdgeRef :=
  match s.node? ef with
  | some (.join _ ps) => ps.toFinset
  | some .identity | some (.custom _) | some (.compose _ _) => {ef}
  | _ => ∅

theorem mem_parts {f : EdgeNode L K} (hf : s.node? a = some f) (htop : f ≠ .allTop)
    (hbot : f ≠ .allBottom) {p : EdgeRef} : p ∈ s.parts a ↔ p ∈ partsOf a f := by
  unfold parts
  rw [hf]
  cases f with
  | allTop => exact absurd rfl htop
  | allBottom => exact absurd rfl hbot
  | _ => simp [partsOf]

theorem Made.absorbs [JoinLattice L] [DecidableEq L] {seed : L} {ps : List EdgeRef}
    (hc : Made s seed ps c) (hid : .identity ∈ ps) : Absorbs s c := by
  rcases hc.cases with ⟨rfl, -⟩ | ⟨-, rfl, -⟩ | ⟨-, rfl⟩ | ⟨hn, -, -⟩
  · exact .inr (.inl rfl)
  · cases hid
  · exact .inl (List.mem_singleton.1 hid).symm
  · exact .inr (.inr ⟨seed, ps, hn, hid⟩)

section Storing

variable [Payload K L]

/-- A property that storing a node and remembering a composition keep. -/
structure Stable (P : EdgeStore L K → Prop) : Prop where
  remember : ∀ {s} composed, P s → P { s with composed }
  intern : ∀ {s s' node ef}, P s → s.intern node = (ef, s') → P s'

theorem stable_joined (m : Memo (EdgeRef × EdgeRef) EdgeRef) :
    Stable fun s : EdgeStore L K => s.joined = m where
  remember _ h := h
  intern {s s' node ef} h hi := by
    unfold EdgeStore.intern at hi
    split at hi
    · exact (Prod.mk.inj hi).2 ▸ h
    · obtain ⟨-, rfl⟩ := Prod.mk.inj hi
      exact (allocate_frame rfl).2.2.1.trans h

end Storing

variable [JoinLattice L] [Payload K L] {φ ψ : L → L}

theorem Means.eq_constant (hφ : Means s ef φ) {node : EdgeNode L K} (hn : s.node? ef = some node)
    {v : L} (hv : node.constant? = some v) : φ = fun _ => v := by
  cases node with
  | allTop => cases hv; exact hφ.eq_apply hn rfl
  | allBottom => cases hv; exact hφ.eq_apply hn rfl
  | constant c => cases hv; exact hφ.eq_apply hn rfl
  | _ => cases hv

/-! ## What a join does to its operands -/

section Operands

variable [LawfulJoin L]

/-- An operand goes into the seed and the parts. -/
theorem join_operand {Φ : EdgeRef → L → L}
    (hΦ : ∀ p node, s.node? p = some node → Means s p (Φ p)) {f : EdgeNode L K}
    (hf : s.node? a = some f) (seed v : L) :
    JoinLattice.join seed (Φ a v) = joinParts (addSeed seed f) (partsOf a f) Φ v := by
  cases f with
  | constant c =>
    rw [(hΦ a _ hf).eq_apply hf rfl]
    rfl
  | join seed' parts =>
    obtain ⟨Ψ, hΨ, heq⟩ := (hΦ a _ hf).of_join hf
    have hcongr : joinParts seed' parts Ψ = joinParts seed' parts Φ :=
      joinParts_congr fun p hp => by
        obtain ⟨node, hn⟩ := (hΨ p hp).node?
        exact (hΨ p hp).unique (hΦ p node hn)
    rw [heq, hcongr]
    exact (joinParts_seed seed seed' parts v).symm
  | _ => rfl

/-- The seeds and the parts of two operands together are their join. -/
theorem joinParts_operands {Φ : EdgeRef → L → L}
    (hΦ : ∀ p node, s.node? p = some node → Means s p (Φ p)) {f g : EdgeNode L K}
    (hf : s.node? a = some f) (hg : s.node? b = some g) (v : L) :
    joinParts (addSeed (addSeed top f) g) (sortParts (partsOf a f ++ partsOf b g)) Φ v =
      JoinLattice.join (Φ a v) (Φ b v) :=
  calc joinParts (addSeed (addSeed top f) g) (sortParts (partsOf a f ++ partsOf b g)) Φ v
      = joinParts (addSeed (addSeed top f) g) (partsOf b g ++ partsOf a f) Φ v := by
        rw [joinParts_sortParts, joinParts_append_comm]
    _ = joinParts (JoinLattice.join (addSeed top f) (Φ b v)) (partsOf a f) Φ v := by
        rw [joinParts_append, ← join_operand hΦ hg]
    _ = JoinLattice.join (Φ b v) (joinParts (addSeed top f) (partsOf a f) Φ v) := by
        rw [LawfulJoin.join_comm, joinParts_seed]
    _ = JoinLattice.join (Φ a v) (Φ b v) := by
        rw [← join_operand hΦ hf, top_join, LawfulJoin.join_comm]

/-- `c` is the join of `a` and `b`, or was widened. -/
structure Joins (s : EdgeStore L K) (a b c : EdgeRef) : Prop where
  means : ∃ φ ψ χ, Means s a φ ∧ Means s b ψ ∧ Means s c χ ∧
    ((∀ v, χ v = JoinLattice.join (φ v) (ψ v)) ∨
      c = .allBottom ∧ s.joinLimit < (s.parts a ∪ s.parts b).card)
  absorbs : Absorbs s a ∨ Absorbs s b → Absorbs s c
  identity_left : a = .identity → Absorbs s b → c = b
  identity_right : b = .identity → Absorbs s a → c = a

theorem Joins.symm (h : Joins s a b c) : Joins s b a c := by
  obtain ⟨φ, ψ, χ, hφ, hψ, hχ, hjoin⟩ := h.means
  refine ⟨⟨ψ, φ, χ, hψ, hφ, hχ, ?_⟩, fun hab => h.absorbs hab.symm, h.identity_right,
    h.identity_left⟩
  rw [Finset.union_comm]
  exact hjoin.imp_left fun hv v => (hv v).trans (LawfulJoin.join_comm _ _)

theorem Unwidened.joinKey (h : Unwidened s) (hc : s.joined.table[EdgeStore.joinKey a b]? = some c)
    {χ : L → L} (hφ : Means s a φ) (hψ : Means s b ψ) (hχ : Means s c χ) (v : L) :
    χ v = JoinLattice.join (φ v) (ψ v) := by
  rcases joinKey_eq a b with heq | heq <;> rw [heq] at hc
  · exact h a b c φ ψ χ hc hφ hψ hχ v
  · rw [h b a c ψ φ χ hc hψ hφ hχ v, LawfulJoin.join_comm]

end Operands

variable [DecidableEq L]

/-! ## Meaning by shape -/

theorem Regular.means_identity (h : Regular s) : Means s .identity id := .leaf h.identity rfl

theorem Regular.means_allTop (h : Regular s) : Means s .allTop fun _ => top := .leaf h.allTop rfl

theorem Regular.means_allBottom (h : Regular s) : Means s .allBottom fun _ => bottom :=
  .leaf h.allBottom rfl

theorem Regular.means_constantAt (h : Regular s) {v : L} (hc : ConstantAt s v ef) :
    Means s ef fun _ => v := by
  cases hc with
  | top hv => exact hv ▸ h.means_allTop
  | bottom _ hv => exact hv ▸ h.means_allBottom
  | node _ _ hn => exact .leaf hn rfl

/-- Of all laws of payloads, that of constants is enough for leaves. -/
theorem Regular.means_leafAt_of_constant (h : Regular s)
    (hconstant : ∀ (k : K) (c : L), Payload.constant? k = some c → ∀ v : L, Payload.apply k v = c)
    {e : EdgeFunction L K} (he : LeafAt s e ef) : Means s ef e.apply := by
  cases he with
  | identity => exact h.means_identity
  | allTop => exact h.means_allTop
  | allBottom => exact h.means_allBottom
  | constant hc => exact h.means_constantAt hc
  | @folded k v _ hk hc =>
    have happly : (EdgeFunction.custom k : EdgeFunction L K).apply = fun _ => v :=
      funext fun w => hconstant k v hk w
    rw [happly]
    exact h.means_constantAt hc
  | custom _ hn => exact .leaf hn rfl

section Payloads

variable [LawfulPayload K L]

theorem Regular.means_leafAt (h : Regular s) {e : EdgeFunction L K} (he : LeafAt s e ef) :
    Means s ef e.apply :=
  h.means_leafAt_of_constant (fun _ _ hk => LawfulPayload.apply_constant hk) he

/-- A handle with the shape of a composition means the composition. -/
theorem Composes.means (h : Regular s) {n : Nat} (hc : Composes s n a b c) (ha : Means s a φ)
    (hb : Means s b ψ) : Means s c (ψ ∘ φ) := by
  induction n generalizing a b c φ ψ with
  | zero => cases hc
  | succ n ih =>
    unfold Composes at hc
    split_ifs at hc with haid hbid
    · subst haid hc
      rw [ha.unique h.means_identity]
      exact hb
    · subst hbid hc
      rw [hb.unique h.means_identity]
      exact ha
    obtain ⟨f, g, hf, hg, hc⟩ := hc
    unfold ComposesNodes at hc
    cases hgc : g.constant? with
    | some v =>
      simp only [hgc] at hc
      subst hc
      obtain rfl := hb.eq_constant hg hgc
      exact hb
    | none =>
    cases hfc : f.constant? with
    | some v =>
      simp only [hgc, hfc] at hc
      obtain ⟨ψ', hψ', hat⟩ := hc
      rw [ha.eq_constant hf hfc, hb.unique hψ']
      exact h.means_constantAt hat
    | none =>
    simp only [hgc, hfc] at hc
    cases hk : foldCompose f g with
    | some k =>
      simp only [hk] at hc
      obtain ⟨p, q, rfl, rfl, hpq⟩ := foldCompose_eq_some hk
      have happly : (EdgeFunction.custom k : EdgeFunction L K).apply =
          (EdgeFunction.custom q).apply ∘ (EdgeFunction.custom p).apply :=
        funext fun v => LawfulPayload.apply_compose hpq v
      rw [ha.eq_apply hf rfl, hb.eq_apply hg rfl, ← happly]
      exact h.means_leafAt hc
    | none =>
      simp only [hk] at hc
      split at hc
      · -- The composition was nested to the right.
        obtain ⟨tail, htail, hc⟩ := hc
        obtain ⟨φ₁, φ₂, hφ₁, hφ₂, rfl⟩ := ha.of_compose hf
        exact ih (φ := φ₁) (ψ := ψ ∘ φ₂) hc hφ₁ (ih htail hφ₂ hb)
      · exact .compose hc ha hb

end Payloads

/-! ## Parts of regular stores -/

theorem Regular.of_mem_parts (h : Regular s) {p : EdgeRef} (hp : p ∈ s.parts a) :
    s.Alive p ∧ p ≠ .allTop ∧ p ≠ .allBottom := by
  cases hn : s.node? a with
  | none => simp [parts, hn] at hp
  | some f =>
    have htop : f ≠ .allTop := by
      rintro rfl
      simp [parts, hn] at hp
    have hbot : f ≠ .allBottom := by
      rintro rfl
      simp [parts, hn] at hp
    rw [mem_parts hn htop hbot] at hp
    have hatop : a ≠ .allTop := by
      rintro rfl
      exact htop (Option.some.inj (hn.symm.trans h.allTop))
    have habot : a ≠ .allBottom := by
      rintro rfl
      exact hbot (Option.some.inj (hn.symm.trans h.allBottom))
    obtain ⟨hne, hne', node, hnode, -⟩ := partsOf_isPart h hn hatop habot hp
    exact ⟨⟨node, hnode⟩, hne, hne'⟩

/-- Only stored nodes and the identity can be parts. -/
theorem Regular.card_parts_le (h : Regular s) : (s.parts a ∪ s.parts b).card ≤ s.interned + 1 := by
  have hparts : ∀ p ∈ s.parts a ∪ s.parts b, s.Alive p ∧ p ≠ .allTop ∧ p ≠ .allBottom := by
    intro p hp
    exact (Finset.mem_union.1 hp).elim h.of_mem_parts h.of_mem_parts
  generalize s.parts a ∪ s.parts b = ps at hparts
  have hnodup : (.allTop :: .allBottom :: ps.toList).Nodup := by
    refine List.nodup_cons.2 ⟨fun hm => ?_, List.nodup_cons.2 ⟨fun hm => ?_, ps.nodup_toList⟩⟩
    · rcases List.mem_cons.1 hm with hm | hm
      · cases hm
      · exact (hparts _ (Finset.mem_toList.1 hm)).2.1 rfl
    · exact (hparts _ (Finset.mem_toList.1 hm)).2.2 rfl
  have hlength := h.length_le hnodup fun ef hef => by
    rcases List.mem_cons.1 hef with rfl | hef
    · exact ⟨_, h.allTop⟩
    rcases List.mem_cons.1 hef with rfl | hef
    · exact ⟨_, h.allBottom⟩
    · exact (hparts _ (Finset.mem_toList.1 hef)).1
  have hcount := h.count
  simp only [List.length_cons, Finset.length_toList] at hlength
  omega

/-! ## Absorbing the identity -/

theorem Absorbs.mem_partsOf (h : Regular s) (ha : Absorbs s a) (hbot : a ≠ .allBottom)
    {f : EdgeNode L K} (hf : s.node? a = some f) : .identity ∈ partsOf a f := by
  rcases ha with rfl | hb | ⟨seed, parts, hn, hid⟩
  · obtain rfl := Option.some.inj (h.identity.symm.trans hf)
    simp [partsOf]
  · exact absurd hb hbot
  · obtain rfl := Option.some.inj (hn.symm.trans hf)
    exact hid

theorem not_absorbs_allTop (h : Regular s) : ¬ Absorbs s .allTop := by
  rintro (hid | hid | ⟨seed, parts, hn, -⟩)
  · cases hid
  · cases hid
  · cases h.allTop.symm.trans hn

theorem not_absorbs_custom (h : Regular s) {k : K} (hn : s.node? a = some (.custom k)) :
    ¬ Absorbs s a := by
  rintro (rfl | rfl | ⟨seed, parts, hn', -⟩)
  · cases h.identity.symm.trans hn
  · cases h.allBottom.symm.trans hn
  · cases hn'.symm.trans hn

/-- A join absorbs the identity if one of its operands does. -/
theorem Joined.absorbs (h : Regular s) (hc : Joined s a b c) (hab : Absorbs s a ∨ Absorbs s b) :
    Absorbs s c := by
  unfold Joined at hc
  split_ifs at hc with hsame hatop hbtop hbot
  · subst hsame hc
    exact hab.elim id id
  · subst hatop hc
    exact hab.resolve_left (not_absorbs_allTop h)
  · subst hbtop hc
    exact hab.resolve_right (not_absorbs_allTop h)
  · exact hc ▸ .inr (.inl rfl)
  obtain ⟨hab', hbb⟩ := not_or.1 hbot
  obtain ⟨f, g, hf, hg, hc⟩ := hc
  cases hk : foldJoin f g with
  | some k =>
    obtain ⟨p, q, rfl, rfl, -⟩ := foldJoin_eq_some hk
    exact (hab.elim (not_absorbs_custom h hf) (not_absorbs_custom h hg)).elim
  | none =>
    simp only [hk] at hc
    refine hc.absorbs (mem_sortParts.2 (List.mem_append.2 ?_))
    exact hab.imp (fun ha => ha.mem_partsOf h hab' hf) fun hb => hb.mem_partsOf h hbb hg

/-- The seed and the parts of a join node make that node. -/
theorem Made.eq_of_node (h : Regular s) {seed : L} {ps : List EdgeRef} (hc : Made s seed ps c)
    (hn : s.node? ef = some (.join seed ps)) : c = ef := by
  obtain ⟨hnormal, -⟩ := h.normal_join hn
  rcases hc.cases with ⟨-, hbot | hlimit⟩ | ⟨-, hnil, -⟩ | ⟨htop, hone⟩ | ⟨hn', -, -⟩
  · exact absurd hbot hnormal.seed_ne
  · exact absurd hnormal.short (Nat.not_le.2 hlimit)
  · exact absurd hnil hnormal.nonempty
  · exact absurd htop (hnormal.single (by rw [hone]; rfl))
  · exact h.unique rfl hn' hn

/-! ## What storing and remembering keep -/

namespace Stable

variable {P : EdgeStore L K → Prop}

theorem constant (hP : Stable P) (h : P s) {v : L} (hc : s.constant v = (ef, s')) : P s' := by
  unfold EdgeStore.constant at hc
  split_ifs at hc
  · exact (Prod.mk.inj hc).2 ▸ h
  · exact (Prod.mk.inj hc).2 ▸ h
  · exact hP.intern h hc

theorem leaf (hP : Stable P) (h : P s) {e : EdgeFunction L K} (he : s.leaf e = (ef, s')) :
    P s' := by
  cases e with
  | constant v => exact hP.constant h he
  | custom k =>
    simp only [EdgeStore.leaf] at he
    split at he
    · exact hP.constant h he
    · exact hP.intern h he
  | _ => exact (Prod.mk.inj he).2 ▸ h

theorem composeWith
    {compose : EdgeStore L K → EdgeRef → EdgeRef → Except Fault (EdgeRef × EdgeStore L K)}
    (hP : Stable P) (hcompose : ∀ {t t' x y z}, P t → compose t x y = .ok (z, t') → P t')
    (h : P s) (hc : composeWith compose s a b = .ok (c, s')) : P s' := by
  rw [EdgeStore.composeWith, bind_eq_ok] at hc
  obtain ⟨isConst, -, hc⟩ := hc
  split at hc
  · exact (Prod.mk.inj (pure_eq_ok.1 hc)).2 ▸ h
  rw [bind_eq_ok] at hc
  obtain ⟨first?, -, hc⟩ := hc
  cases first? with
  | some v =>
    obtain ⟨w, -, hc⟩ := bind_eq_ok.1 hc
    exact hP.constant h (pure_eq_ok.1 hc)
  | none =>
  simp only [bind_eq_ok] at hc
  obtain ⟨f, -, g, -, hc⟩ := hc
  cases hk : foldCompose f g with
  | some k =>
    simp only [hk] at hc
    exact hP.leaf h (pure_eq_ok.1 hc)
  | none =>
    simp only [hk] at hc
    cases f with
    | compose x y =>
      obtain ⟨⟨tail, u⟩, htail, hc⟩ := bind_eq_ok.1 hc
      exact hcompose (hcompose h htail) hc
    | _ => exact hP.intern h (pure_eq_ok.1 hc)

theorem composeTo {n : Nat} (hP : Stable P) (h : P s) (hc : composeTo n s a b = .ok (c, s')) :
    P s' := by
  induction n generalizing s a b c s' with
  | zero => cases hc
  | succ n ih =>
    by_cases haid : a = .identity
    · rw [EdgeStore.composeTo, if_pos haid] at hc
      exact (Prod.mk.inj (Except.ok.inj hc)).2 ▸ h
    by_cases hbid : b = .identity
    · rw [EdgeStore.composeTo, if_neg haid, if_pos hbid] at hc
      exact (Prod.mk.inj (Except.ok.inj hc)).2 ▸ h
    rw [composeTo_eq haid hbid] at hc
    cases hknown : s.composed.lookup (a, b) with | mk known memo => ?_
    rw [hknown] at hc
    cases known with
    | some ef => exact (Prod.mk.inj (Except.ok.inj hc)).2 ▸ hP.remember memo h
    | none =>
      obtain ⟨⟨ef, t⟩, hstep, hc⟩ := bind_eq_ok.1 hc
      have ht : P t := hP.composeWith (fun ht hc => ih ht hc) (hP.remember memo h) hstep
      exact (Prod.mk.inj (pure_eq_ok.1 hc)).2 ▸ hP.remember (t.composed.insert (a, b) ef) ht

theorem makeJoin (hP : Stable P) (h : P s) {seed : L} {ps : List EdgeRef}
    (hc : s.makeJoin seed ps = (c, s')) : P s' := by
  unfold EdgeStore.makeJoin at hc
  split at hc
  · exact (Prod.mk.inj hc).2 ▸ h
  cases ps with
  | nil => exact hP.constant h hc
  | cons p rest =>
    simp only at hc
    split_ifs at hc
    · exact (Prod.mk.inj hc).2 ▸ h
    · exact (Prod.mk.inj hc).2 ▸ h
    · exact hP.intern h hc

theorem joinOrdered (hP : Stable P) (h : P s) (hc : s.joinOrdered a b = .ok (c, s')) : P s' := by
  unfold EdgeStore.joinOrdered at hc
  split_ifs at hc
  · exact (Prod.mk.inj (Except.ok.inj hc)).2 ▸ h
  · exact (Prod.mk.inj (Except.ok.inj hc)).2 ▸ h
  · exact (Prod.mk.inj (Except.ok.inj hc)).2 ▸ h
  simp only [bind_eq_ok] at hc
  obtain ⟨f, -, g, -, hc⟩ := hc
  cases hk : foldJoin f g with
  | some k =>
    simp only [hk] at hc
    exact hP.leaf h (pure_eq_ok.1 hc)
  | none =>
    simp only [hk] at hc
    exact hP.makeJoin h (pure_eq_ok.1 hc)

end Stable

theorem keepsJoins_leaf {e : EdgeFunction L K} (he : s.leaf e = (ef, s')) : KeepsJoins s s' :=
  .of_eq (congrArg Memo.table ((stable_joined s.joined).leaf rfl he))

theorem keepsJoins_compose (hc : s.compose a b = .ok (c, s')) : KeepsJoins s s' :=
  .of_eq (congrArg Memo.table ((stable_joined s.joined).composeTo rfl hc))

/-- A join is remembered. -/
theorem keepsJoins_join (hc : s.join a b = .ok (c, s')) :
    KeepsJoins s s' ∧ (a ≠ b → s'.joined.table[joinKey a b]? = some c) := by
  unfold EdgeStore.join at hc
  split at hc
  · next heq =>
    exact ⟨(Prod.mk.inj (Except.ok.inj hc)).2 ▸ .refl s, absurd heq⟩
  unfold Memo.lookup at hc
  cases hknown : s.joined.table[joinKey a b]? with
  | some ef =>
    simp only [hknown, Except.ok.injEq, Prod.mk.injEq] at hc
    obtain ⟨rfl, rfl⟩ := hc
    exact ⟨.of_eq rfl, fun _ => hknown⟩
  | none =>
    simp only [hknown] at hc
    obtain ⟨⟨ef, t⟩, hstep, hc⟩ := bind_eq_ok.1 hc
    obtain ⟨rfl, rfl⟩ := Prod.mk.inj (pure_eq_ok.1 hc)
    have htable := congrArg Memo.table ((stable_joined _).joinOrdered rfl hstep)
    refine ⟨fun key d hd => ?_, fun _ => ?_⟩
    · show (t.joined.table.insert (joinKey a b) ef)[key]? = some d
      rw [getElem?_insert_eq, if_neg (fun heq => ?_), htable]
      · exact hd
      · rw [← heq, hknown] at hd
        cases hd
    · show (t.joined.table.insert (joinKey a b) ef)[joinKey a b]? = some ef
      rw [getElem?_insert_eq, if_pos rfl]

/-! ## Joins -/

variable [LawfulJoin L]

/-- Joining the identity to what absorbs it changes no handle. -/
theorem Joined.eq_of_identity (h : Regular s) (hc : Joined s .identity b c) (hb : Absorbs s b) :
    c = b := by
  unfold Joined at hc
  split_ifs at hc with hsame hatop hbtop hbot
  · exact hc.trans hsame
  · exact hc
  · exact absurd (hbtop ▸ hb) (not_absorbs_allTop h)
  · exact hc.trans (hbot.resolve_left (by decide)).symm
  obtain ⟨f, g, hf, hg, hc⟩ := hc
  obtain rfl := Option.some.inj (h.identity.symm.trans hf)
  rcases hb with hid | hb | ⟨seed, ps, hn, hid⟩
  · exact absurd hid.symm hsame
  · exact absurd (.inr hb) hbot
  · -- The parts of `b` already hold the identity, so the join node is that of `b`.
    obtain rfl := Option.some.inj (hn.symm.trans hg)
    have hasc := (h.normal_join hn).1.ascending
    have hsort : sortParts (.identity :: ps) = ps := sortParts_eq hasc (by simp [hid])
    change Made s (JoinLattice.join top seed) (sortParts (.identity :: ps)) c at hc
    rw [top_join, hsort] at hc
    exact hc.eq_of_node h hn

theorem Made.means (h : Regular s) {seed : L} {ps : List EdgeRef} {Φ : EdgeRef → L → L}
    (hΦ : ∀ p ∈ ps, Means s p (Φ p)) (hc : Made s seed ps c) :
    Means s c (joinParts seed ps Φ) ∨ c = .allBottom ∧ s.joinLimit < ps.length := by
  rcases hc.cases with ⟨rfl, rfl | hlimit⟩ | ⟨-, rfl, hat⟩ | ⟨rfl, rfl⟩ | ⟨hn, -, -⟩
  · have hjoin : joinParts bottom ps Φ = fun _ => bottom := funext fun v => joinParts_bottom ps v
    rw [hjoin]
    exact .inl h.means_allBottom
  · exact .inr ⟨rfl, hlimit⟩
  · exact .inl (h.means_constantAt hat)
  · have hjoin : joinParts top [c] Φ = Φ c := funext fun v => top_join (Φ c v)
    rw [hjoin]
    exact .inl (hΦ c List.mem_cons_self)
  · exact .inl (.join Φ hn hΦ)

variable [LawfulPayload K L]

/-- A handle with the shape of a join means the join, or too many functions met in it. -/
theorem Joined.means (h : Regular s) (hc : Joined s a b c) (ha : Means s a φ) (hb : Means s b ψ) :
    Means s c (fun v => JoinLattice.join (φ v) (ψ v)) ∨
      c = .allBottom ∧ s.joinLimit < (s.parts a ∪ s.parts b).card := by
  unfold Joined at hc
  split_ifs at hc with hab hatop hbtop hbot
  · subst hab hc
    have hself : (fun v => JoinLattice.join (φ v) (ψ v)) = φ :=
      funext fun v => by rw [hb.unique ha, LawfulJoin.join_self]
    rw [hself]
    exact .inl ha
  · subst hatop hc
    have hjoin : (fun v => JoinLattice.join (φ v) (ψ v)) = ψ :=
      funext fun v => by rw [ha.unique h.means_allTop, top_join]
    rw [hjoin]
    exact .inl hb
  · subst hbtop hc
    have hjoin : (fun v => JoinLattice.join (φ v) (ψ v)) = φ :=
      funext fun v => by rw [hb.unique h.means_allTop, LawfulJoin.join_top]
    rw [hjoin]
    exact .inl ha
  · subst hc
    have hjoin : (fun v => JoinLattice.join (φ v) (ψ v)) = fun _ => bottom := by
      funext v
      rcases hbot with rfl | rfl
      · rw [ha.unique h.means_allBottom, bottom_join]
      · rw [hb.unique h.means_allBottom, LawfulJoin.join_bottom]
    rw [hjoin]
    exact .inl h.means_allBottom
  obtain ⟨f, g, hf, hg, hc⟩ := hc
  cases hk : foldJoin f g with
  | some k =>
    simp only [hk] at hc
    obtain ⟨p, q, rfl, rfl, hpq⟩ := foldJoin_eq_some hk
    have hjoin : (fun v => JoinLattice.join (φ v) (ψ v)) =
        (EdgeFunction.custom k : EdgeFunction L K).apply := by
      funext v
      rw [ha.eq_apply hf rfl, hb.eq_apply hg rfl]
      exact (LawfulPayload.apply_join hpq v).symm
    rw [hjoin]
    exact .inl (h.means_leafAt hc)
  | none =>
    simp only [hk] at hc
    have : Nonempty (L → L) := ⟨id⟩
    choose! Φ hΦ using fun p (hp : s.Alive p) => h.means hp
    have hΦ' : ∀ p node, s.node? p = some node → Means s p (Φ p) := fun p node hn => hΦ p ⟨node, hn⟩
    have halive : ∀ p ∈ sortParts (partsOf a f ++ partsOf b g), Means s p (Φ p) := by
      intro p hp
      rcases List.mem_append.1 (mem_sortParts.1 hp) with hp | hp
      · exact hΦ p (partsOf_isAlive h hf hp)
      · exact hΦ p (partsOf_isAlive h hg hp)
    rcases hc.means h halive with hmeans | ⟨rfl, hlimit⟩
    · left
      have hjoin : (fun v => JoinLattice.join (φ v) (ψ v)) = joinParts (addSeed (addSeed top f) g)
          (sortParts (partsOf a f ++ partsOf b g)) Φ := by
        funext v
        rw [ha.unique (hΦ' a f hf), hb.unique (hΦ' b g hg), joinParts_operands hΦ' hf hg v]
      rw [hjoin]
      exact hmeans
    · refine .inr ⟨rfl, ?_⟩
      obtain ⟨hab, hbb⟩ := not_or.1 hbot
      have hunion : (partsOf a f ++ partsOf b g).toFinset = s.parts a ∪ s.parts b := by
        ext p
        have hfa : f ≠ .allTop ∧ f ≠ .allBottom := by
          constructor <;> rintro rfl
          · exact hatop (h.eq_allTop hf)
          · exact hab (h.eq_allBottom hf)
        have hgb : g ≠ .allTop ∧ g ≠ .allBottom := by
          constructor <;> rintro rfl
          · exact hbtop (h.eq_allTop hg)
          · exact hbb (h.eq_allBottom hg)
        rw [List.mem_toFinset, List.mem_append, Finset.mem_union, mem_parts hf hfa.1 hfa.2,
          mem_parts hg hgb.1 hgb.2]
      rwa [length_sortParts, hunion] at hlimit

theorem Joined.joins (h : Regular s) (hc : Joined s a b c) (ha : s.Alive a) (hb : s.Alive b) :
    Joins s a b c := by
  obtain ⟨φ, hφ⟩ := h.means ha
  obtain ⟨ψ, hψ⟩ := h.means hb
  refine ⟨?_, hc.absorbs h, ?_, ?_⟩
  · rcases hc.means h hφ hψ with hmeans | ⟨rfl, hlimit⟩
    · exact ⟨φ, ψ, _, hφ, hψ, hmeans, .inl fun _ => rfl⟩
    · exact ⟨φ, ψ, _, hφ, hψ, h.means_allBottom, .inr ⟨rfl, hlimit⟩⟩
  · rintro rfl hab
    exact hc.eq_of_identity h hab
  · rintro rfl hab
    refine (hc.swap fun f g _ hg => ?_).eq_of_identity h hab
    obtain rfl := Option.some.inj (h.identity.symm.trans hg)
    cases f <;> rfl

/-! ## Stores without widened joins -/

/-- If no two operands that were joined have too many parts together, no join was widened. -/
theorem Regular.unwidened (h : Regular s)
    (hfits : ∀ a b, s.joined.table[(a, b)]? = some .allBottom →
      (s.parts a ∪ s.parts b).card ≤ s.joinLimit) : Unwidened s := by
  intro a b c φ ψ χ hc hφ hψ hχ v
  obtain ⟨-, -, hjoined⟩ := h.joined a b c hc
  rcases hjoined.means h hφ hψ with hmeans | ⟨rfl, hlimit⟩
  · rw [hχ.unique hmeans]
  · exact absurd hlimit (Nat.not_lt_of_le (hfits a b hc))

end EdgeStore

end Tabulation
