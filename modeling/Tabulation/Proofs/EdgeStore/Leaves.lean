import Tabulation.Proofs.EdgeStore.Regular

/-!
# Composition of leaves

Edge functions of the client that compose to an edge function of the client are stored without any
composition nodes: `andThen?` is their composition as the store folds it, and `Composes.leafAt` says
that the handle of the composition is the handle of that function.

If all payloads are shared, a function has one handle, `LeafAt.unique`.
-/

namespace Tabulation

namespace EdgeFunction

variable {L K : Type} [JoinLattice L] [Payload K L]

/-- First `f`, then `g`, if that is known to be an edge function of the client. -/
def andThen? : EdgeFunction L K → EdgeFunction L K → Option (EdgeFunction L K)
  | .identity, g => some g
  | f, .identity => some f
  | f, g =>
    match g.constant?, f.constant? with
    | some _, _ => some g
    | none, some v => some (.constant (g.apply v))
    | none, none =>
      match f, g with
      | .custom f, .custom g => (Payload.compose? L f g).map .custom
      | _, _ => none

theorem andThen?_identity (f : EdgeFunction L K) : f.andThen? .identity = some f := by
  cases f <;> rfl

theorem apply_of_constant? [LawfulPayload K L] {f : EdgeFunction L K} {c : L}
    (hc : f.constant? = some c) (v : L) : f.apply v = c := by
  cases f with
  | identity => cases hc
  | custom k => exact LawfulPayload.apply_constant hc v
  | _ => exact Option.some.inj hc

/-- The composition is applied in this order. -/
theorem apply_andThen? [LawfulPayload K L] {f g h : EdgeFunction L K} (hh : f.andThen? g = some h) :
    h.apply = g.apply ∘ f.apply := by
  unfold andThen? at hh
  split at hh
  · exact Option.some.inj hh ▸ rfl
  · exact Option.some.inj hh ▸ rfl
  · split at hh
    · next c hc =>
      obtain rfl := Option.some.inj hh
      exact funext fun v => (apply_of_constant? hc v).trans (apply_of_constant? hc _).symm
    · next c _ hc =>
      obtain rfl := Option.some.inj hh
      exact funext fun v => congrArg g.apply (apply_of_constant? hc v).symm
    · split at hh
      · obtain ⟨k, hk, rfl⟩ := Option.map_eq_some_iff.1 hh
        exact funext fun v => LawfulPayload.apply_compose hk v
      · cases hh

end EdgeFunction

namespace EdgeStore

variable {L K : Type} [Ord L] [Ord K] [JoinLattice L] [Payload K L] [DecidableEq L]
  {s : EdgeStore L K} {a b c : EdgeRef} {f g h : EdgeFunction L K}

theorem ConstantAt.node? (hs : Regular s) {v : L} (hc : ConstantAt s v a) :
    ∃ node, s.node? a = some node ∧ node.constant? = some v := by
  cases hc with
  | top hv => exact ⟨_, hs.allTop, congrArg some hv.symm⟩
  | bottom _ hv => exact ⟨_, hs.allBottom, congrArg some hv.symm⟩
  | node _ _ hn => exact ⟨_, hn, rfl⟩

/-- The node of a function knows of the same constant. -/
theorem LeafAt.node? (hs : Regular s) (hf : LeafAt s f a) :
    ∃ node, s.node? a = some node ∧ node.constant? = f.constant? := by
  cases hf with
  | identity => exact ⟨_, hs.identity, rfl⟩
  | allTop => exact ⟨_, hs.allTop, rfl⟩
  | allBottom => exact ⟨_, hs.allBottom, rfl⟩
  | constant hc => exact hc.node? hs
  | folded hk hc =>
    obtain ⟨node, hn, hv⟩ := hc.node? hs
    exact ⟨node, hn, hv.trans hk.symm⟩
  | custom hk hn => exact ⟨_, hn, hk.symm⟩

theorem LeafAt.eq_identity (hs : Regular s) (hf : LeafAt s f .identity) : f = .identity := by
  obtain ⟨node, hn, hconst⟩ := hf.node? hs
  obtain rfl := Option.some.inj (hs.identity.symm.trans hn)
  have hnone : f.constant? = none := hconst.symm
  cases hf with
  | identity => rfl
  | constant _ => cases hnone
  | folded hk _ => exact absurd (hk.symm.trans hnone) (Option.some_ne_none _)
  | custom _ hn => cases Option.some.inj (hs.identity.symm.trans hn)

/-- The handle of a composition is that of the composed function. -/
theorem Composes.leafAt (hs : Regular s) {n : Nat} (hc : Composes s n a b c) (hf : LeafAt s f a)
    (hg : LeafAt s g b) (hh : f.andThen? g = some h) : LeafAt s h c := by
  cases n with
  | zero => cases hc
  | succ n =>
  unfold Composes at hc
  split_ifs at hc with ha hb
  · subst ha
    obtain rfl := hf.eq_identity hs
    obtain rfl := Option.some.inj hh
    exact hc ▸ hg
  · subst hb
    obtain rfl := hg.eq_identity hs
    rw [EdgeFunction.andThen?_identity] at hh
    obtain rfl := Option.some.inj hh
    exact hc ▸ hf
  · obtain ⟨x, y, hx, hy, hc⟩ := hc
    obtain ⟨x', hx', hfx⟩ := hf.node? hs
    obtain ⟨y', hy', hgy⟩ := hg.node? hs
    obtain rfl := Option.some.inj (hx.symm.trans hx')
    obtain rfl := Option.some.inj (hy.symm.trans hy')
    have hfne : f ≠ .identity := by
      rintro rfl
      cases hf
      exact ha rfl
    have hgne : g ≠ .identity := by
      rintro rfl
      cases hg
      exact hb rfl
    unfold ComposesNodes at hc
    rw [hfx, hgy] at hc
    unfold EdgeFunction.andThen? at hh
    split at hh
    · exact absurd rfl hfne
    · exact absurd rfl hgne
    split at hh
    · next hconst =>
      rw [hconst] at hc
      obtain rfl := Option.some.inj hh
      exact hc ▸ hg
    · next hconst hconst' =>
      rw [hconst, hconst'] at hc
      obtain ⟨ψ, hψ, hc⟩ := hc
      obtain rfl := Option.some.inj hh
      cases hg with
      | custom _ hn =>
        obtain rfl := hψ.eq_apply hn rfl
        exact .constant hc
      | identity => exact absurd rfl hgne
      | folded hk _ => exact absurd (hk.symm.trans hconst) (Option.some_ne_none _)
      | _ => cases hconst
    · next hconst hconst' =>
      rw [hconst, hconst'] at hc
      split at hh
      · obtain ⟨k, hk, rfl⟩ := Option.map_eq_some_iff.1 hh
        cases hf with
        | folded hk _ => exact absurd (hk.symm.trans hconst') (Option.some_ne_none _)
        | custom _ hnf =>
          cases hg with
          | folded hk _ => exact absurd (hk.symm.trans hconst) (Option.some_ne_none _)
          | custom _ hng =>
            obtain rfl := Option.some.inj (hx.symm.trans hnf)
            obtain rfl := Option.some.inj (hy.symm.trans hng)
            have hfold : foldCompose (L := L) (.custom _) (.custom _) = some k := hk
            simp only [hfold] at hc
            exact hc
      · cases hh

/-- A constant has one handle. -/
theorem ConstantAt.unique (hs : Regular s) {v : L} (ha : ConstantAt s v a)
    (hb : ConstantAt s v b) : a = b := by
  cases ha with
  | top hv =>
    cases hb with
    | top _ => rfl
    | bottom hne _ => exact absurd hv hne
    | node hne _ _ => exact absurd hv hne
  | bottom hne hv =>
    cases hb with
    | top hv' => exact absurd hv' hne
    | bottom _ _ => rfl
    | node _ hne' _ => exact absurd hv hne'
  | node hne hne' hn =>
    cases hb with
    | top hv => exact absurd hv hne
    | bottom _ hv => exact absurd hv hne'
    | node _ _ hn' => exact hs.unique rfl hn hn'

/-- A function has one handle, if all payloads are shared. -/
theorem LeafAt.unique [SharedPayloads L K] (hs : Regular s) (ha : LeafAt s f a)
    (hb : LeafAt s f b) : a = b := by
  cases ha with
  | identity => cases hb; rfl
  | allTop => cases hb; rfl
  | allBottom => cases hb; rfl
  | constant hc =>
    cases hb with
    | constant hc' => exact hc.unique hs hc'
  | folded hk hc =>
    cases hb with
    | folded hk' hc' => exact hc.unique hs (Option.some.inj (hk'.symm.trans hk) ▸ hc')
    | custom hk' _ => exact absurd (hk.symm.trans hk') (Option.some_ne_none _)
  | custom hk hn =>
    cases hb with
    | folded hk' _ => exact absurd (hk'.symm.trans hk) (Option.some_ne_none _)
    | custom _ hn' => exact hs.unique (kind?_custom _) hn hn'

end EdgeStore

end Tabulation
