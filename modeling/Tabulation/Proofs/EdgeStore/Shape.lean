import Tabulation.Proofs.EdgeStore.Parts
import Tabulation.Proofs.EdgeStore.Sweep

/-!
# The shape of stored edge functions

Besides a meaning, a stored function has a shape: the nodes that its handle leads to. The operations
of a store choose handles by shape alone, whatever is remembered from earlier and in whatever slot a
node lies. `Composes` and `Joined` say which shape a composition and a join have.

**Steps.** A composition is one step, `composeWith`, between looking a result up and remembering it.

**`Shaped`.** No node is stored twice, heights decrease along operands, and what is remembered has
the shape that it would be given again.

**Totality.** `Within s n ef` says that walks from a handle end after `n` levels. Evaluation and
marking then return.
-/

namespace Tabulation

variable {L K : Type}

/-- The result of a node that says that it ignores its argument. -/
def EdgeNode.constant? [JoinLattice L] : EdgeNode L K → Option L
  | .allTop => some top
  | .allBottom => some bottom
  | .constant c => some c
  | _ => none

namespace EdgeStore

theorem addSeed_comm [JoinLattice L] [LawfulJoin L] (f g : EdgeNode L K) :
    addSeed (addSeed top f) g = addSeed (addSeed top g) f := by
  cases f <;> cases g <;> simp only [addSeed, top_join] <;> exact LawfulJoin.join_comm _ _

section Payloads

variable [Payload K L]

theorem foldCompose_eq_some {f g : EdgeNode L K} {k : K} (h : foldCompose f g = some k) :
    ∃ p q, f = .custom p ∧ g = .custom q ∧ Payload.compose? L p q = some k := by
  unfold foldCompose at h
  split at h
  · exact ⟨_, _, rfl, rfl, h⟩
  · cases h

theorem foldJoin_eq_some {f g : EdgeNode L K} {k : K} (h : foldJoin f g = some k) :
    ∃ p q, f = .custom p ∧ g = .custom q ∧ Payload.join? L p q = some k := by
  unfold foldJoin at h
  split at h
  · exact ⟨_, _, rfl, rfl, h⟩
  · cases h

/-- All payloads are kept canonical, and the client joins two payloads in either order alike. -/
class SharedPayloads (L K : Type) [Payload K L] : Prop where
  cacheable : ∀ k : K, Payload.cacheable L k = true
  join_comm : ∀ f g : K, Payload.join? L f g = Payload.join? L g f

theorem kind?_custom [SharedPayloads L K] (k : K) :
    (kind? (EdgeNode.custom k : EdgeNode L K)).isSome := by
  simp [kind?, SharedPayloads.cacheable]

theorem foldJoin_comm [SharedPayloads L K] (f g : EdgeNode L K) : foldJoin f g = foldJoin g f := by
  cases f <;> cases g <;> simp [foldJoin, SharedPayloads.join_comm]

end Payloads

variable [Ord L] [Ord K] {s s' : EdgeStore L K} {a b c ef : EdgeRef}

/-! ## Walks through operands -/

/-- Walks from the handle end after at most `n` levels. -/
def Within (s : EdgeStore L K) : Nat → EdgeRef → Prop
  | 0, _ => False
  | n + 1, ef => ∃ node, s.node? ef = some node ∧ ∀ p ∈ node.operands, Within s n p

theorem Within.node? {n : Nat} (h : Within s n ef) : ∃ node, s.node? ef = some node := by
  cases n with
  | zero => cases h
  | succ n => exact h.imp fun _ h => h.1

theorem Within.mono {n : Nat} (h : Within s n ef) (hle : s ≤ s') : Within s' n ef := by
  induction n generalizing ef with
  | zero => cases h
  | succ n ih =>
    obtain ⟨node, hn, hops⟩ := h
    exact ⟨node, hle.1 _ _ hn, fun p hp => ih (hops p hp)⟩

theorem markTo_total {n : Nat} (h : Within s n ef) (marked : BitSet) :
    ∃ marked', s.markTo n marked ef = .ok marked' := by
  induction n generalizing ef marked with
  | zero => cases h
  | succ n ih =>
    obtain ⟨node, hn, hops⟩ := h
    rw [markTo]
    split
    · exact ⟨_, rfl⟩
    · obtain ⟨m, hm, -⟩ := foldlM_total (f := s.markTo n) (fun _ => True) (b := marked) trivial
        fun p hp m _ => (ih (hops p hp) m).imp fun _ h => ⟨h, trivial⟩
      rw [node_eq_ok.2 hn, ok_bind, hm]
      exact ⟨_, rfl⟩

/-! ## Heights -/

/-- Heights decrease along operands. -/
def Ranked (s : EdgeStore L K) : Prop :=
  ∀ ef node p, s.node? ef = some node → p ∈ node.operands → s.height p < s.height ef

/-- A node is higher than its operands. -/
theorem lt_heightOf {node : EdgeNode L K} {p : EdgeRef} (hp : p ∈ node.operands) :
    s.height p < s.heightOf node := by
  have hfold : ∀ (ps : List EdgeRef) (h : Nat),
      h ≤ ps.foldl (fun h ef => max h (s.height ef + 1)) h ∧
        ∀ q ∈ ps, s.height q < ps.foldl (fun h ef => max h (s.height ef + 1)) h := by
    intro ps
    induction ps with
    | nil => exact fun h => ⟨Nat.le_refl h, by simp⟩
    | cons q ps ih =>
      intro h
      obtain ⟨hle, hlt⟩ := ih (max h (s.height q + 1))
      refine ⟨Nat.le_trans (Nat.le_max_left ..) hle, fun r hr => ?_⟩
      rcases List.mem_cons.1 hr with rfl | hr
      · exact Nat.le_trans (Nat.le_max_right ..) hle
      · exact hlt r hr
  exact (hfold node.operands 0).2 p hp

theorem allocate_height {t : EdgeStore L K} (hfree : ∀ i ∈ s.free, s.slots[i]? = some none)
    {node : EdgeNode L K} (ha : s.allocate node = (ef, t)) (ef' : EdgeRef) :
    t.height ef' = if ef' = ef then s.heightOf node else s.height ef' := by
  rw [height, (slot?_allocate hfree ha).2]
  by_cases he : ef' = ef
  · rw [if_pos he, if_pos he]
  · rw [if_neg he, if_neg he, height]

/-! ## Evaluation -/

section Lattice

variable [JoinLattice L]

theorem constant?_eq_ok {o : Option L} :
    s.constant? ef = .ok o ↔ ∃ node, s.node? ef = some node ∧ node.constant? = o := by
  rw [constant?, bind_eq_ok]
  simp only [node_eq_ok]
  refine exists_congr fun node => and_congr_right fun _ => ?_
  cases node <;> exact pure_eq_ok

theorem isConstant_eq {t : Bool} :
    s.isConstant ef = .ok t ↔ ∃ node, s.node? ef = some node ∧ node.constant?.isSome = t := by
  rw [isConstant, bind_eq_ok]
  simp only [constant?_eq_ok, pure_eq_ok]
  constructor
  · rintro ⟨_, ⟨node, hn, rfl⟩, h⟩
    exact ⟨node, hn, h⟩
  · rintro ⟨node, hn, h⟩
    exact ⟨_, ⟨node, hn, rfl⟩, h⟩

/-! ## The shape of joined parts -/

variable [DecidableEq L]

/-- The handle of the join of a seed and of sorted parts. -/
def Made (s : EdgeStore L K) (seed : L) (parts : List EdgeRef) (c : EdgeRef) : Prop :=
  if isBottom seed then c = .allBottom
  else
    match parts with
    | [] => ConstantAt s seed c
    | p :: rest =>
      if rest.isEmpty && isTop seed then c = p
      else if s.joinLimit < parts.length then c = .allBottom
      else s.node? c = some (.join seed parts)

/-- What a join of a seed and of parts can be. -/
theorem Made.cases {seed : L} {parts : List EdgeRef} (h : Made s seed parts c) :
    c = .allBottom ∧ (seed = bottom ∨ s.joinLimit < parts.length) ∨
      seed ≠ bottom ∧ parts = [] ∧ ConstantAt s seed c ∨
      seed = top ∧ parts = [c] ∨
      s.node? c = some (.join seed parts) ∧ parts ≠ [] ∧ (parts.length = 1 → seed ≠ top) := by
  unfold Made at h
  split at h
  · next hbot => exact .inl ⟨h, .inl (by simpa [isBottom] using hbot)⟩
  next hbot =>
  cases parts with
  | nil => exact .inr (.inl ⟨by simpa [isBottom] using hbot, rfl, h⟩)
  | cons p rest =>
    simp only at h
    split at h
    · next hsingle =>
      obtain ⟨hrest, htop⟩ := Bool.and_eq_true_iff.1 hsingle
      rw [List.isEmpty_iff.1 hrest, h]
      exact .inr (.inr (.inl ⟨by simpa [isTop] using htop, rfl⟩))
    next hsingle =>
    split at h
    · next hlimit => exact .inl ⟨h, .inr hlimit⟩
    · refine .inr (.inr (.inr ⟨h, List.cons_ne_nil _ _, fun hlen htop => hsingle ?_⟩))
      have hrest : rest = [] := List.eq_nil_of_length_eq_zero (by simpa using hlen)
      simp [hrest, isTop, htop]

theorem Made.mono {seed : L} {parts : List EdgeRef} (h : Made s seed parts c) (hle : s ≤ s') :
    Made s' seed parts c := by
  unfold Made at h ⊢
  split at h
  · next hbot => rwa [if_pos hbot]
  next hbot =>
  rw [if_neg hbot]
  cases parts with
  | nil => exact h.mono hle
  | cons p rest =>
    simp only at h ⊢
    rw [hle.2.1]
    split at h
    · next hsingle => rwa [if_pos hsingle]
    next hsingle =>
    rw [if_neg hsingle]
    split at h
    · next hlimit => rwa [if_pos hlimit]
    · next hlimit =>
      rw [if_neg hlimit]
      exact hle.1 _ _ h

end Lattice

variable [JoinLattice L] [Payload K L]

theorem evalTo_total {n : Nat} (h : Within s n ef) (v : L) : ∃ r, s.evalTo n ef v = .ok r := by
  induction n generalizing ef v with
  | zero => cases h
  | succ n ih =>
    obtain ⟨node, hn, hops⟩ := h
    have hnode : s.node ef = .ok node := node_eq_ok.2 hn
    simp only [evalTo, bind_eq_ok, hnode, Except.ok.injEq, exists_eq_left']
    cases node with
    | compose f g =>
      obtain ⟨w, hw⟩ := ih (hops f (by simp [EdgeNode.operands])) v
      obtain ⟨r, hr⟩ := ih (hops g (by simp [EdgeNode.operands])) w
      exact ⟨r, bind_eq_ok.2 ⟨w, hw, hr⟩⟩
    | join seed parts =>
      obtain ⟨r, hr, -⟩ := foldlM_total (fun _ => True) trivial fun p hp acc _ => by
        obtain ⟨w, hw⟩ := ih (hops p hp) v
        exact ⟨JoinLattice.join acc w, bind_eq_ok.2 ⟨w, hw, rfl⟩, trivial⟩
      exact ⟨r, hr⟩
    | _ => exact ⟨_, rfl⟩

/-! ## The shape of compositions -/

/-- The handle `c` of the composition of two handles with nodes `f` and `g`, neither of them the
identity. `R` is used for the two compositions of a re-association. -/
def ComposesNodes (s : EdgeStore L K) (R : EdgeRef → EdgeRef → EdgeRef → Prop) (a b : EdgeRef)
    (f g : EdgeNode L K) (c : EdgeRef) : Prop :=
  match g.constant?, f.constant? with
  | some _, _ => c = b
  | none, some v => ∃ ψ, Means s b ψ ∧ ConstantAt s (ψ v) c
  | none, none =>
    match foldCompose f g with
    | some k => LeafAt s (.custom k) c
    | none =>
      match f with
      | .compose x y => ∃ tail, R y b tail ∧ R x tail c
      | _ => s.node? c = some (.compose a b)

/-- The handle `c` of the composition of two handles, re-associating at most `n` levels. -/
def Composes (s : EdgeStore L K) : Nat → EdgeRef → EdgeRef → EdgeRef → Prop
  | 0, _, _, _ => False
  | n + 1, a, b, c =>
    if a = .identity then c = b
    else if b = .identity then c = a
    else ∃ f g, s.node? a = some f ∧ s.node? b = some g ∧ ComposesNodes s (Composes s n) a b f g c

theorem ComposesNodes.imp {R R' : EdgeRef → EdgeRef → EdgeRef → Prop} {f g : EdgeNode L K}
    (h : ComposesNodes s R a b f g c) (hle : s ≤ s') (hR : ∀ x y z, R x y z → R' x y z) :
    ComposesNodes s' R' a b f g c := by
  unfold ComposesNodes at h ⊢
  split at h
  · exact h
  · obtain ⟨ψ, hψ, hc⟩ := h
    exact ⟨ψ, hψ.mono hle, hc.mono hle⟩
  split at h
  · exact h.mono hle
  split at h
  · obtain ⟨tail, h₁, h₂⟩ := h
    exact ⟨tail, hR _ _ _ h₁, hR _ _ _ h₂⟩
  · exact hle.1 _ _ h

/-- Shapes are kept in a larger store and with more levels. -/
theorem Composes.imp {n m : Nat} (h : Composes s n a b c) (hle : s ≤ s') (hnm : n ≤ m) :
    Composes s' m a b c := by
  induction n generalizing m a b c with
  | zero => cases h
  | succ n ih =>
    obtain ⟨m, rfl⟩ := Nat.exists_eq_add_of_le' (Nat.le_trans (Nat.succ_pos n) hnm)
    unfold Composes at h ⊢
    split_ifs at h ⊢
    · exact h
    · exact h
    · obtain ⟨f, g, hf, hg, h⟩ := h
      exact ⟨f, g, hle.1 _ _ hf, hle.1 _ _ hg,
        h.imp hle fun _ _ _ h => ih h (Nat.le_of_succ_le_succ hnm)⟩

theorem Composes.mono {n : Nat} (h : Composes s n a b c) (hle : s ≤ s') : Composes s' n a b c :=
  h.imp hle (Nat.le_refl n)

/-! ### One step of a composition -/

variable [DecidableEq L]

/-- The composition of two handles other than the identity. `compose` is used for the two
compositions of a re-association. -/
def composeWith
    (compose : EdgeStore L K → EdgeRef → EdgeRef → Except Fault (EdgeRef × EdgeStore L K))
    (s : EdgeStore L K) (first second : EdgeRef) : Except Fault (EdgeRef × EdgeStore L K) := do
  if ← s.isConstant second then
    return (second, s)
  match ← s.constant? first with
  | some c => return s.constant (← s.eval second c)
  | none =>
    let f ← s.node first
    let g ← s.node second
    match foldCompose f g with
    | some k => return s.leaf (.custom k)
    | none =>
      match f with
      | .compose a b =>
        let (tail, s) ← compose s b second
        compose s a tail
      | _ => return s.intern (.compose first second)

/-- The step of a composition, by the nodes of its operands. -/
theorem composeWith_eq
    {compose : EdgeStore L K → EdgeRef → EdgeRef → Except Fault (EdgeRef × EdgeStore L K)}
    {f g : EdgeNode L K} (hf : s.node? a = some f) (hg : s.node? b = some g) :
    composeWith compose s a b =
      match g.constant?, f.constant? with
      | some _, _ => .ok (b, s)
      | none, some v => do return s.constant (← s.eval b v)
      | none, none =>
        match foldCompose f g with
        | some k => .ok (s.leaf (.custom k))
        | none =>
          match f with
          | .compose x y => do
            let (tail, s) ← compose s y b
            compose s x tail
          | _ => .ok (s.intern (.compose a b)) := by
  rw [composeWith, isConstant_eq.2 ⟨g, hg, rfl⟩, ok_bind]
  cases hgc : g.constant? with
  | some v => rfl
  | none =>
  rw [Option.isSome_none, if_neg Bool.false_ne_true, constant?_eq_ok.2 ⟨f, hf, rfl⟩, ok_bind]
  cases hfc : f.constant? with
  | some v => rfl
  | none =>
  simp only
  rw [node_eq_ok.2 hf, ok_bind, node_eq_ok.2 hg, ok_bind]
  cases foldCompose f g with
  | some k => rfl
  | none => cases f <;> rfl

/-- A composition that is not remembered takes a step and remembers its result. -/
theorem composeTo_eq {n : Nat} (ha : a ≠ .identity) (hb : b ≠ .identity) :
    composeTo (n + 1) s a b =
      match s.composed.lookup (a, b) with
      | (some ef, memo) => .ok (ef, { s with composed := memo })
      | (none, memo) => do
        let (ef, s) ← composeWith (composeTo n) { s with composed := memo } a b
        return (ef, { s with composed := s.composed.insert (a, b) ef }) := by
  rw [composeTo, if_neg ha, if_neg hb]
  cases s.composed.lookup (a, b) with | mk known memo => ?_
  cases known with
  | some ef => rfl
  | none =>
  simp only
  generalize ({ s with composed := memo } : EdgeStore L K) = s
  rw [composeWith]
  cases s.isConstant b with
  | error e => rfl
  | ok isConst =>
  cases isConst with
  | true => rfl
  | false =>
  simp only [ok_bind, Bool.false_eq_true, if_false]
  cases s.constant? a with
  | error e => rfl
  | ok known =>
  simp only [ok_bind]
  cases known with
  | some v => simp only [bind_assoc, pure_bind]
  | none =>
  simp only
  cases s.node a with
  | error e => rfl
  | ok f =>
  cases s.node b with
  | error e => rfl
  | ok g =>
  simp only [ok_bind]
  cases foldCompose f g with
  | some k => rfl
  | none =>
  cases f with
  | compose x y =>
    simp only [bind_assoc]
  | _ => rfl

/-! ## The shape of joins -/

/-- The handle `c` of the join of two handles. -/
def Joined (s : EdgeStore L K) (a b c : EdgeRef) : Prop :=
  if a = b then c = a
  else if a = .allTop then c = b
  else if b = .allTop then c = a
  else if a = .allBottom ∨ b = .allBottom then c = .allBottom
  else ∃ f g, s.node? a = some f ∧ s.node? b = some g ∧
    match foldJoin f g with
    | some k => LeafAt s (.custom k) c
    | none => Made s (addSeed (addSeed top f) g) (sortParts (partsOf a f ++ partsOf b g)) c

theorem Joined.mono (h : Joined s a b c) (hle : s ≤ s') : Joined s' a b c := by
  unfold Joined at h ⊢
  split_ifs at h ⊢ <;> try exact h
  obtain ⟨f, g, hf, hg, h⟩ := h
  refine ⟨f, g, hle.1 _ _ hf, hle.1 _ _ hg, ?_⟩
  split at h
  · exact h.mono hle
  · exact h.mono hle

/-! ### Either order -/

theorem joinKey_eq (a b : EdgeRef) : joinKey a b = (a, b) ∨ joinKey a b = (b, a) := by
  unfold joinKey
  split
  · exact .inl rfl
  · exact .inr rfl

/-- Joins have one shape in either order, if the client joins the two payloads alike. -/
theorem Joined.swap [LawfulJoin L] (h : Joined s a b c)
    (hcomm : ∀ f g, s.node? a = some f → s.node? b = some g → foldJoin f g = foldJoin g f) :
    Joined s b a c := by
  unfold Joined at h ⊢
  by_cases hab : a = b
  · subst hab
    simpa using h
  rw [if_neg hab] at h
  rw [if_neg (Ne.symm hab)]
  by_cases hat : a = .allTop
  · rw [if_pos hat] at h
    rw [if_neg fun hbt => hab (hat.trans hbt.symm), if_pos hat]
    exact h
  rw [if_neg hat] at h
  by_cases hbt : b = .allTop
  · rw [if_pos hbt] at h ⊢
    exact h
  rw [if_neg hbt] at h
  rw [if_neg hbt, if_neg hat]
  by_cases hbot : a = .allBottom ∨ b = .allBottom
  · rw [if_pos hbot] at h
    rw [if_pos hbot.symm]
    exact h
  rw [if_neg hbot] at h
  rw [if_neg fun hbot' => hbot hbot'.symm]
  obtain ⟨f, g, hf, hg, h⟩ := h
  refine ⟨g, f, hg, hf, ?_⟩
  rw [← hcomm f g hf hg, addSeed_comm,
    sortParts_eq (ascending_sortParts (partsOf a f ++ partsOf b g))
    fun p => by simp only [mem_sortParts, List.mem_append, or_comm]]
  exact h

/-- Joins are made with the lower handle first, which does not matter. -/
theorem Joined.of_joinKey [LawfulJoin L] [SharedPayloads L K]
    (h : Joined s (joinKey a b).1 (joinKey a b).2 c) : Joined s a b c := by
  rcases joinKey_eq a b with heq | heq
  · rwa [heq] at h
  · rw [heq] at h
    exact h.swap fun f g _ _ => foldJoin_comm f g

/-! ## Shaped stores -/

/-- No node is stored twice, heights decrease, and what is remembered has the right shape. -/
structure Shaped (s : EdgeStore L K) : Prop where
  unique : ∀ e f node, s.node? e = some node → s.node? f = some node → e = f
  ranked : Ranked s
  composed : ∀ a b c, s.composed.table[(a, b)]? = some c → ∃ n, Composes s n a b c
  joined : ∀ a b c, s.joined.table[(a, b)]? = some c → Joined s a b c

end EdgeStore

end Tabulation
