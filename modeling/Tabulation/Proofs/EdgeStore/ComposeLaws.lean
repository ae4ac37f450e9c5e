import Tabulation.Lattice.Flat
import Tabulation.Proofs.EdgeStore.Afresh
import Tabulation.Proofs.EdgeStore.JoinLaws
import Tabulation.Proofs.EdgeStore.Leaves

/-!
# Composition of handles is associative

If the client composes no payloads, the handle of a composition depends only on what is composed and
in which order, not on the grouping.

**Chains.** A handle that does not ignore its argument stands for a *chain*: the payloads and joins
that it applies, one after another. Since compositions are nested to the right, the chain of a
composition is the first operand of it followed by the chain of the second. A composition of two
handles appends their chains, and in a regular store equal chains have one handle.

**Constants.** A composition that ends with a constant is that constant. One that begins with a
constant is the constant that the chain of the second operand makes of it.

**Levels.** A composition re-associates at most as many levels as its first operand is high, so it
returns although each re-association composes twice.

Main result: `compose_assoc`.
-/

namespace Tabulation

variable {L K : Type} [Ord L] [Ord K] [JoinLattice L] [Payload K L]

/-- A node that may stand in a chain. -/
def EdgeNode.IsLink : EdgeNode L K → Prop
  | .custom _ | .join _ _ => True
  | _ => False

namespace EdgeStore

variable {s : EdgeStore L K} {a b c d ef : EdgeRef} {ps qs : List EdgeRef} {v : L} {n m : Nat}

theorem Composes.eq_of_identity_first (hc : Composes s n .identity b c) : c = b := by
  cases n with
  | zero => cases hc
  | succ n =>
    rw [Composes, if_pos rfl] at hc
    exact hc

theorem Composes.eq_of_identity_second (hc : Composes s n a .identity c) : c = a := by
  cases n with
  | zero => cases hc
  | succ n =>
    rw [Composes, if_pos rfl] at hc
    split_ifs at hc with ha
    · exact hc.trans ha.symm
    · exact hc

variable [DecidableEq L]

/-! ## Levels -/

theorem composeWith_mono
    {compose compose' : EdgeStore L K → EdgeRef → EdgeRef → Except Fault (EdgeRef × EdgeStore L K)}
    (hcompose : ∀ {t x y r}, compose t x y = .ok r → compose' t x y = .ok r)
    {r : EdgeRef × EdgeStore L K} (h : composeWith compose s a b = .ok r) :
    composeWith compose' s a b = .ok r := by
  rw [composeWith, bind_eq_ok] at h ⊢
  obtain ⟨isConst, hconst, h⟩ := h
  refine ⟨isConst, hconst, ?_⟩
  cases isConst with
  | true => exact h
  | false =>
  rw [if_neg Bool.false_ne_true, bind_eq_ok] at h ⊢
  obtain ⟨o, ho, h⟩ := h
  refine ⟨o, ho, ?_⟩
  cases o with
  | some v => exact h
  | none =>
  simp only [bind_eq_ok] at h ⊢
  obtain ⟨f, hf, g, hg, h⟩ := h
  refine ⟨f, hf, g, hg, ?_⟩
  cases hk : foldCompose f g with
  | some k => simpa only [hk] using h
  | none =>
  simp only [hk] at h ⊢
  cases f with
  | compose x y =>
    obtain ⟨tail, htail, h⟩ := bind_eq_ok.1 h
    exact bind_eq_ok.2 ⟨tail, hcompose htail, hcompose h⟩
  | _ => exact h

/-- A composition that returns does the same if it may re-associate more levels. -/
theorem composeTo_succ {r : EdgeRef × EdgeStore L K} (h : composeTo n s a b = .ok r) :
    composeTo (n + 1) s a b = .ok r := by
  induction n generalizing s a b r with
  | zero => cases h
  | succ n ih =>
    by_cases haid : a = .identity
    · rw [composeTo, if_pos haid] at h ⊢
      exact h
    by_cases hbid : b = .identity
    · rw [composeTo, if_neg haid, if_pos hbid] at h ⊢
      exact h
    rw [composeTo_eq haid hbid] at h ⊢
    cases hknown : s.composed.lookup (a, b) with | mk known memo => ?_
    rw [hknown] at h
    cases known with
    | some ef => exact h
    | none =>
      obtain ⟨p, hstep, h⟩ := bind_eq_ok.1 h
      exact bind_eq_ok.2 ⟨p, composeWith_mono ih hstep, h⟩

theorem composeTo_mono {r : EdgeRef × EdgeStore L K} (h : composeTo n s a b = .ok r)
    (hle : n ≤ m) : composeTo m s a b = .ok r := by
  induction hle with
  | refl => exact h
  | step _ ih => exact composeTo_succ ih

/-! ## Chains -/

/-- The payloads and joins that the handle applies, one after another. -/
inductive Chain (s : EdgeStore L K) : EdgeRef → List EdgeRef → Prop
  | identity : Chain s .identity []
  | link {ef : EdgeRef} {node : EdgeNode L K} :
      s.node? ef = some node → node.IsLink → Chain s ef [ef]
  | compose {ef first second : EdgeRef} {ps : List EdgeRef} :
      s.node? ef = some (.compose first second) → Chain s second ps → Chain s ef (first :: ps)

/-- A live handle ignores its argument, or it has a chain. -/
theorem Regular.constant_or_chain (h : Regular s) (ha : s.Alive ef) :
    (∃ v, s.constant? ef = .ok (some v)) ∨ ∃ ps, Chain s ef ps := by
  obtain ⟨n, hwithin⟩ : ∃ n, Within s n ef := ⟨_, h.within ha (Nat.lt_succ_self _)⟩
  induction n generalizing ef with
  | zero => cases hwithin
  | succ n ih =>
    obtain ⟨node, hn, hops⟩ := hwithin
    cases node with
    | identity => exact .inr ⟨[], h.eq_identity hn ▸ .identity⟩
    | allTop => exact .inl ⟨_, constant?_eq_ok.2 ⟨_, hn, rfl⟩⟩
    | allBottom => exact .inl ⟨_, constant?_eq_ok.2 ⟨_, hn, rfl⟩⟩
    | constant v => exact .inl ⟨_, constant?_eq_ok.2 ⟨_, hn, rfl⟩⟩
    | custom k => exact .inr ⟨_, .link hn trivial⟩
    | join seed parts => exact .inr ⟨_, .link hn trivial⟩
    | compose x y =>
      obtain ⟨f, g, -, hg, hnormal⟩ := h.normal_compose hn
      rcases ih ⟨g, hg⟩ (hops y (by simp [EdgeNode.operands])) with ⟨v, hv⟩ | ⟨ps, hps⟩
      · obtain ⟨g', hg', hv⟩ := constant?_eq_ok.1 hv
        obtain rfl := Option.some.inj (hg.symm.trans hg')
        rw [hnormal.constant_second] at hv
        cases hv
      · exact .inr ⟨_, .compose hn hps⟩

namespace Chain

theorem node? (h : Regular s) (hc : Chain s ef ps) :
    ∃ node, s.node? ef = some node ∧ node.constant? = none := by
  cases hc with
  | identity => exact ⟨_, h.identity, rfl⟩
  | @link _ node hn hlink =>
    refine ⟨node, hn, ?_⟩
    cases node with
    | custom k => rfl
    | join seed parts => rfl
    | _ => cases hlink
  | compose hn _ => exact ⟨_, hn, rfl⟩

theorem eq_nil_iff (h : Regular s) (hc : Chain s ef ps) : ps = [] ↔ ef = .identity := by
  cases hc with
  | identity => simp
  | link hn hlink =>
    refine iff_of_false (List.cons_ne_nil _ _) ?_
    rintro rfl
    obtain rfl := Option.some.inj (hn.symm.trans h.identity)
    cases hlink
  | compose hn _ =>
    refine iff_of_false (List.cons_ne_nil _ _) ?_
    rintro rfl
    cases hn.symm.trans h.identity

/-- The members of a chain are links. -/
theorem links (h : Regular s) (hc : Chain s ef ps) {p : EdgeRef} (hp : p ∈ ps) :
    ∃ node, s.node? p = some node ∧ node.IsLink := by
  induction hc with
  | identity => cases hp
  | @link _ node hn hlink =>
    obtain rfl := List.mem_singleton.1 hp
    exact ⟨node, hn, hlink⟩
  | @compose ef x y ps hn _ ih =>
    rcases List.mem_cons.1 hp with rfl | hp
    · obtain ⟨f, g, hf, -, hnormal⟩ := h.normal_compose hn
      refine ⟨f, hf, ?_⟩
      have hconst := hnormal.constant_first
      cases f with
      | identity => exact absurd (h.eq_identity hf) hnormal.first
      | compose x y => exact absurd rfl (hnormal.right x y)
      | custom k => trivial
      | join seed parts => trivial
      | _ => cases hconst
    · exact ih hp

/-- Handles with equal chains are equal. -/
theorem inj (h : Regular s) (ha : Chain s a ps) (hb : Chain s b ps) : a = b := by
  induction ha generalizing b with
  | identity => exact ((eq_nil_iff h hb).1 rfl).symm
  | link hn _ =>
    cases hb with
    | link => rfl
    | @compose _ x y _ hn' hy =>
      obtain ⟨f, g, -, -, hnormal⟩ := h.normal_compose hn'
      exact absurd ((eq_nil_iff h hy).1 rfl) hnormal.second
  | @compose a x y ps hn hy ih =>
    cases hb with
    | link hn' _ =>
      obtain ⟨f, g, -, -, hnormal⟩ := h.normal_compose hn
      exact absurd ((eq_nil_iff h hy).1 rfl) hnormal.second
    | compose hn' hy' =>
      obtain rfl := ih hy'
      exact h.unique rfl hn hn'

/-- A chain is applied link by link. -/
theorem means (h : Regular s) {Φ : EdgeRef → L → L} (hc : Chain s ef ps)
    (hΦ : ∀ p ∈ ps, Means s p (Φ p)) : Means s ef fun v => ps.foldl (fun v p => Φ p v) v := by
  induction hc with
  | identity => exact h.means_identity
  | link => exact hΦ _ List.mem_cons_self
  | compose hn _ ih =>
    exact .compose hn (hΦ _ List.mem_cons_self) (ih fun p hp => hΦ p (List.mem_cons_of_mem _ hp))

/-- Appended chains mean the composition. -/
theorem means_append {φ ψ : L → L} (h : Regular s) (ha : Chain s a ps) (hb : Chain s b qs)
    (hc : Chain s c (ps ++ qs)) (hφ : Means s a φ) (hψ : Means s b ψ) : Means s c (ψ ∘ φ) := by
  have : Nonempty (L → L) := ⟨id⟩
  choose! Φ hΦ using fun p (hp : s.Alive p) => h.means hp
  have hmem : ∀ p ∈ ps ++ qs, Means s p (Φ p) := fun p hp => by
    obtain ⟨node, hn, -⟩ := hc.links h hp
    exact hΦ p ⟨node, hn⟩
  have hmeans := hc.means h hmem
  simp only [List.foldl_append] at hmeans
  rw [hφ.unique (ha.means h fun p hp => hmem p (List.mem_append_left _ hp)),
    hψ.unique (hb.means h fun p hp => hmem p (List.mem_append_right _ hp))]
  exact hmeans

end Chain

/-! ## Chains and constants of compositions -/

theorem ConstantAt.constant? (h : Regular s) (hc : ConstantAt s v ef) :
    s.constant? ef = .ok (some v) :=
  constant?_eq_ok.2 (hc.node? h)

namespace Composes

/-- A composition that ends with a constant is that constant. -/
theorem eq_of_constant_second (h : Regular s) (hb : s.constant? b = .ok (some v))
    (hc : Composes s n a b c) : c = b := by
  obtain ⟨g, hg, hgc⟩ := constant?_eq_ok.1 hb
  cases n with
  | zero => cases hc
  | succ n =>
    rw [Composes] at hc
    split_ifs at hc with ha hid
    · exact hc
    · obtain rfl := Option.some.inj (hg.symm.trans (hid ▸ h.identity))
      cases hgc
    · obtain ⟨f, g', -, hg', hc⟩ := hc
      obtain rfl := Option.some.inj (hg.symm.trans hg')
      simpa only [ComposesNodes, hgc] using hc

/-- A chain makes a constant of a constant. -/
theorem constantAt (h : Regular s) {ψ : L → L} (ha : s.constant? a = .ok (some v))
    (hb : Chain s b qs) (hid : b ≠ .identity) (hψ : Means s b ψ) (hc : Composes s n a b c) :
    ConstantAt s (ψ v) c := by
  obtain ⟨f, hf, hfc⟩ := constant?_eq_ok.1 ha
  obtain ⟨g, hg, hgc⟩ := hb.node? h
  cases n with
  | zero => cases hc
  | succ n =>
    rw [Composes, if_neg hid] at hc
    split_ifs at hc with haid
    · obtain rfl := Option.some.inj (hf.symm.trans (haid ▸ h.identity))
      cases hfc
    · obtain ⟨f', g', hf', hg', hc⟩ := hc
      obtain rfl := Option.some.inj (hf.symm.trans hf')
      obtain rfl := Option.some.inj (hg.symm.trans hg')
      simp only [ComposesNodes, hfc, hgc] at hc
      obtain ⟨ψ', hψ', hc⟩ := hc
      exact hψ.unique hψ' ▸ hc

variable (hnone : ∀ f g : K, Payload.compose? L f g = none)

include hnone

/-- If the client composes no payloads, a composition appends the chains of its operands. -/
theorem chain (h : Regular s) (ha : Chain s a ps) (hb : Chain s b qs) (hc : Composes s n a b c) :
    Chain s c (ps ++ qs) := by
  induction n generalizing a b c ps qs with
  | zero => cases hc
  | succ n ih =>
    by_cases haid : a = .identity
    · obtain rfl := (ha.eq_nil_iff h).2 haid
      subst haid
      rw [hc.eq_of_identity_first]
      exact hb
    by_cases hbid : b = .identity
    · obtain rfl := (hb.eq_nil_iff h).2 hbid
      subst hbid
      rw [hc.eq_of_identity_second, List.append_nil]
      exact ha
    rw [Composes, if_neg haid, if_neg hbid] at hc
    obtain ⟨f, g, hf, hg, hc⟩ := hc
    have hfold : foldCompose f g = none := by
      cases f <;> cases g <;> first | rfl | exact hnone _ _
    obtain ⟨f', hf', hfc⟩ := ha.node? h
    obtain rfl := Option.some.inj (hf.symm.trans hf')
    obtain ⟨g', hg', hgc⟩ := hb.node? h
    obtain rfl := Option.some.inj (hg.symm.trans hg')
    simp only [ComposesNodes, hfc, hgc, hfold] at hc
    cases ha with
    | identity => exact absurd rfl haid
    | link hf' hlink =>
      obtain rfl := Option.some.inj (hf.symm.trans hf')
      cases f with
      | custom k => exact .compose hc hb
      | join seed parts => exact .compose hc hb
      | _ => cases hlink
    | @compose _ x y ps hf' hy =>
      obtain rfl := Option.some.inj (hf.symm.trans hf')
      obtain ⟨tail, htail, hc⟩ := hc
      have hx : Chain s x [x] := by
        obtain ⟨node, hn, hlink⟩ := (Chain.compose hf hy).links h List.mem_cons_self
        exact .link hn hlink
      exact (ih hx (ih hy hb htail) hc :)

/-- If the client composes no payloads, a composition has one handle. -/
theorem unique (h : Regular s) (ha : s.Alive a) (hb : s.Alive b) (hc : Composes s n a b c)
    (hd : Composes s m a b d) : c = d := by
  rcases h.constant_or_chain hb with ⟨v, hv⟩ | ⟨qs, hqs⟩
  · rw [hc.eq_of_constant_second h hv, hd.eq_of_constant_second h hv]
  by_cases hid : b = .identity
  · subst hid
    rw [hc.eq_of_identity_second, hd.eq_of_identity_second]
  rcases h.constant_or_chain ha with ⟨v, hv⟩ | ⟨ps, hps⟩
  · obtain ⟨ψ, hψ⟩ := h.means hb
    exact (hc.constantAt h hv hqs hid hψ).unique h (hd.constantAt h hv hqs hid hψ)
  · exact (hc.chain hnone h hps hqs).inj h (hd.chain hnone h hps hqs)

/-- If the client composes no payloads, both groupings of three handles have one handle. -/
theorem assoc {ab bc l r : EdgeRef} {i j : Nat} (h : Regular s) (ha : s.Alive a) (hb : s.Alive b)
    (hc : s.Alive c) (hab : Composes s n a b ab) (hl : Composes s m ab c l)
    (hbc : Composes s i b c bc) (hr : Composes s j a bc r) : l = r := by
  by_cases haid : a = .identity
  · subst haid
    rw [hab.eq_of_identity_first] at hl
    rw [hr.eq_of_identity_first]
    exact hl.unique hnone h hb hc hbc
  by_cases hbid : b = .identity
  · subst hbid
    rw [hab.eq_of_identity_second] at hl
    rw [hbc.eq_of_identity_first] at hr
    exact hl.unique hnone h ha hc hr
  by_cases hcid : c = .identity
  · subst hcid
    rw [hbc.eq_of_identity_second] at hr
    rw [hl.eq_of_identity_second]
    exact hab.unique hnone h ha hb hr
  rcases h.constant_or_chain hc with ⟨v, hv⟩ | ⟨rs, hrs⟩
  · -- The last operand ignores what comes before it.
    obtain rfl := hbc.eq_of_constant_second h hv
    rw [hl.eq_of_constant_second h hv, hr.eq_of_constant_second h hv]
  obtain ⟨χ, hχ⟩ := h.means hc
  rcases h.constant_or_chain hb with ⟨v, hv⟩ | ⟨qs, hqs⟩
  · rw [hab.eq_of_constant_second h hv] at hl
    obtain rfl := hl.unique hnone h hb hc hbc
    have hconst := (hbc.constantAt h hv hrs hcid hχ).constant? h
    exact (hr.eq_of_constant_second h hconst).symm
  obtain ⟨ψ, hψ⟩ := h.means hb
  have hchain := hbc.chain hnone h hqs hrs
  rcases h.constant_or_chain ha with ⟨v, hv⟩ | ⟨ps, hps⟩
  · -- Both groupings apply the chains of `b` and of `c` to the constant.
    have hbcid : bc ≠ .identity := by
      rw [Ne, ← hchain.eq_nil_iff h, List.append_eq_nil_iff, hqs.eq_nil_iff h]
      exact fun hnil => hbid hnil.1
    have hab' := (hab.constantAt h hv hqs hbid hψ).constant? h
    have hl' := hl.constantAt h hab' hrs hcid hχ
    have hr' := hr.constantAt h hv hchain hbcid (hqs.means_append h hrs hchain hψ hχ)
    exact hl'.unique h hr'
  · have hl' := hl.chain hnone h (hab.chain hnone h hps hqs) hrs
    have hr' := hr.chain hnone h hps hchain
    rw [List.append_assoc] at hl'
    exact hl'.inj h hr'

end Composes

/-! ## Successive compositions -/

/-- The handle of `(a ; b) ; c`, with the compositions performed one after another. -/
def composeLeft (s : EdgeStore L K) (a b c : EdgeRef) :
    Except Fault (EdgeRef × EdgeStore L K) := do
  let (ab, s) ← s.compose a b
  s.compose ab c

/-- The handle of `a ; (b ; c)`, with the compositions performed one after another. -/
def composeRight (s : EdgeStore L K) (a b c : EdgeRef) :
    Except Fault (EdgeRef × EdgeStore L K) := do
  let (bc, s) ← s.compose b c
  s.compose a bc

variable [Std.TransOrd L] [Std.LawfulEqOrd L] [Std.TransOrd K] [Std.LawfulEqOrd K]

theorem Regular.composeLeft (h : Regular s) (ha : s.Alive a) (hb : s.Alive b) (hc : s.Alive c) :
    ∃ x s', s.composeLeft a b c = .ok (x, s') ∧ Regular s' ∧ s ≤ s' ∧
      ∃ ab n m, Composes s' n a b ab ∧ Composes s' m ab c x := by
  obtain ⟨ab, s₁, hab, h₁, hle₁, n, hn⟩ := h.compose ha hb
  obtain ⟨x, s₂, hx, h₂, hle₂, m, hm⟩ :=
    h₁.compose (hn.alive h₁ (ha.mono hle₁) (hb.mono hle₁)) (hc.mono hle₁)
  exact ⟨x, s₂, bind_eq_ok.2 ⟨_, hab, hx⟩, h₂, le_trans hle₁ hle₂, ab, n, m, hn.mono hle₂, hm⟩

theorem Regular.composeRight (h : Regular s) (ha : s.Alive a) (hb : s.Alive b) (hc : s.Alive c) :
    ∃ x s', s.composeRight a b c = .ok (x, s') ∧ Regular s' ∧ s ≤ s' ∧
      ∃ bc n m, Composes s' n b c bc ∧ Composes s' m a bc x := by
  obtain ⟨bc, s₁, hbc, h₁, hle₁, n, hn⟩ := h.compose hb hc
  obtain ⟨x, s₂, hx, h₂, hle₂, m, hm⟩ :=
    h₁.compose (ha.mono hle₁) (hn.alive h₁ (hb.mono hle₁) (hc.mono hle₁))
  exact ⟨x, s₂, bind_eq_ok.2 ⟨_, hbc, hx⟩, h₂, le_trans hle₁ hle₂, bc, n, m, hn.mono hle₂, hm⟩

/-- **Composition is associative.** If the client composes no payloads, both groupings of three live
handles have one handle, whichever of them is composed first and whatever is stored in between. A
composition returns, and its result does not depend on how many levels it may re-associate. -/
theorem compose_assoc (limit : Nat) (ops : List (Op L K)) (s : EdgeStore L K)
    (hs : build limit ops = .ok s) (hnone : ∀ f g : K, Payload.compose? L f g = none)
    (a b c : EdgeRef) (ha : s.Alive a) (hb : s.Alive b) (hc : s.Alive c) :
    (∃ x s₁, s.composeLeft a b c = .ok (x, s₁) ∧
      ∀ s₂, Extended s₁ s₂ → ∃ s₃, s₂.composeRight a b c = .ok (x, s₃)) ∧
    (∃ x s₁, s.composeRight a b c = .ok (x, s₁) ∧
      ∀ s₂, Extended s₁ s₂ → ∃ s₃, s₂.composeLeft a b c = .ok (x, s₃)) ∧
    ∃ r, s.compose a b = .ok r ∧ ∀ n, s.height a < n → composeTo n s a b = .ok r := by
  obtain ⟨h, -⟩ := regular_of_build hs
  refine ⟨?_, ?_, ?_⟩
  · obtain ⟨x, s₁, hx, h₁, hle₁, ab, n, m, hab, hl⟩ := h.composeLeft ha hb hc
    refine ⟨x, s₁, hx, fun s₂ hext => ?_⟩
    obtain ⟨h₂, hle₂⟩ := hext.regular h₁
    have hle := le_trans hle₁ hle₂
    obtain ⟨y, s₃, hy, h₃, hle₃, bc, i, j, hbc, hr⟩ :=
      h₂.composeRight (ha.mono hle) (hb.mono hle) (hc.mono hle)
    have hle' := le_trans hle hle₃
    have hle₂' := le_trans hle₂ hle₃
    obtain rfl := Composes.assoc hnone h₃ (ha.mono hle') (hb.mono hle') (hc.mono hle')
      (hab.mono hle₂') (hl.mono hle₂') hbc hr
    exact ⟨s₃, hy⟩
  · obtain ⟨x, s₁, hx, h₁, hle₁, bc, n, m, hbc, hr⟩ := h.composeRight ha hb hc
    refine ⟨x, s₁, hx, fun s₂ hext => ?_⟩
    obtain ⟨h₂, hle₂⟩ := hext.regular h₁
    have hle := le_trans hle₁ hle₂
    obtain ⟨y, s₃, hy, h₃, hle₃, ab, i, j, hab, hl⟩ :=
      h₂.composeLeft (ha.mono hle) (hb.mono hle) (hc.mono hle)
    have hle' := le_trans hle hle₃
    have hle₂' := le_trans hle₂ hle₃
    obtain rfl := Composes.assoc hnone h₃ (ha.mono hle') (hb.mono hle') (hc.mono hle') hab hl
      (hbc.mono hle₂') (hr.mono hle₂')
    exact ⟨s₃, hy⟩
  · obtain ⟨x, s₁, hx, -⟩ := h.compose ha hb
    exact ⟨(x, s₁), hx, fun n hn => composeTo_mono hx hn⟩

end EdgeStore

/-- Multiplication by a number. Nothing is known about compositions. -/
structure Factor where
  number : Int64
  deriving DecidableEq, Repr

namespace Factor

instance : Ord Factor := ⟨compareOn number⟩
instance : Std.TransOrd Factor := inferInstanceAs (Std.TransCmp (compareOn number))

instance : Std.LawfulEqOrd Factor where
  eq_of_compare {a b} h := by
    cases a
    cases b
    exact congrArg Factor.mk (Std.LawfulEqOrd.eq_of_compare h)

instance : Payload Factor (Flat Int64) where
  apply f
    | .value v => .value (v * f.number)
    | v => v

end Factor

namespace EdgeStore

/-- Three factors, a composition and a join of them, and a constant. -/
def strand : List (Op (Flat Int64) Factor) :=
  [.leaf (.custom ⟨2⟩), .leaf (.custom ⟨3⟩), .leaf (.custom ⟨5⟩), .compose ⟨3⟩ ⟨4⟩, .join ⟨3⟩ ⟨5⟩,
    .constant (.value 7)]

/-- The composition, the join and a factor make a chain of four links. With the constant between the
composition and the join, the join is applied to the constant, and its two factors disagree. -/
theorem compose_assoc_strand :
    ∃ s t t' u u', build 2 strand = .ok s ∧
      s.composeLeft ⟨6⟩ ⟨7⟩ ⟨5⟩ = .ok (⟨13⟩, t) ∧ t.composeRight ⟨6⟩ ⟨7⟩ ⟨5⟩ = .ok (⟨13⟩, t') ∧
      s.composeRight ⟨6⟩ ⟨8⟩ ⟨7⟩ = .ok (⟨2⟩, u) ∧ u.composeLeft ⟨6⟩ ⟨8⟩ ⟨7⟩ = .ok (⟨2⟩, u') := by
  have hrun : (do
      let s ← build 2 strand
      let x ← s.composeLeft ⟨6⟩ ⟨7⟩ ⟨5⟩
      let y ← s.composeRight ⟨6⟩ ⟨8⟩ ⟨7⟩
      return (s.node? ⟨5⟩, s.node? ⟨6⟩, s.node? ⟨7⟩, s.node? ⟨8⟩, x.1, y.1)) =
      .ok (some (.custom ⟨5⟩), some (.compose ⟨3⟩ ⟨4⟩), some (.join .top [⟨3⟩, ⟨5⟩]),
        some (.constant (.value 7)), ⟨13⟩, ⟨2⟩) := by
    set_option synthInstance.maxSize 1024 in
    decide +kernel
  simp only [bind_eq_ok, pure_eq_ok, Prod.mk.injEq] at hrun
  obtain ⟨s, hs, ⟨x, t⟩, hx, ⟨y, u⟩, hy, h₅, h₆, h₇, h₈, rfl, rfl⟩ := hrun
  obtain ⟨⟨x, t₁, hx', hafter⟩, -⟩ := compose_assoc 2 strand s hs (fun _ _ => rfl) ⟨6⟩ ⟨7⟩ ⟨5⟩
    ⟨_, h₆⟩ ⟨_, h₇⟩ ⟨_, h₅⟩
  obtain ⟨rfl, rfl⟩ := Prod.mk.inj (Except.ok.inj (hx.symm.trans hx'))
  obtain ⟨-, ⟨y, u₁, hy', hafter'⟩, -⟩ := compose_assoc 2 strand s hs (fun _ _ => rfl) ⟨6⟩ ⟨8⟩ ⟨7⟩
    ⟨_, h₆⟩ ⟨_, h₈⟩ ⟨_, h₇⟩
  obtain ⟨rfl, rfl⟩ := Prod.mk.inj (Except.ok.inj (hy.symm.trans hy'))
  obtain ⟨t', ht'⟩ := hafter t .refl
  obtain ⟨u', hu'⟩ := hafter' u .refl
  exact ⟨s, t, t', u, u', hs, hx, ht', hy, hu'⟩

end EdgeStore

end Tabulation
