import Tabulation.EdgeFunction.PeakMap
import Tabulation.Proofs.EdgeStore.Denotation

/-!
# Memo tables are transparent

A store that remembers nothing does the same as one that remembers compositions and joins, if all
payloads are cacheable.

**Afresh.** `composeAfresh` and `joinAfresh` neither look results up nor remember them. Both ways of
composing share one step, `composeWith`. `memoless` is the store with empty memo tables.

**Why it holds.** A remembered result has the shape that its operands determine. Recomputing a
result of that shape finds each of its nodes in the canonical tables, so it returns the remembered
handle and stores nothing: `Composes.composeAfreshTo_eq` and `Joined.joinOrdered_eq`. What was
remembered before a sweep is forgotten by it, so a remembered shape never mentions a slot that was
used again.

Main result: `memo_transparent`.
-/

namespace Tabulation

namespace EdgeStore

variable {L K : Type} [Ord L] [Ord K] {s s' : EdgeStore L K} {a b c ef : EdgeRef} {n m : Nat}

/-! ## The store without memo tables -/

/-- The store with nothing remembered. -/
def memoless (s : EdgeStore L K) : EdgeStore L K := { s with composed := ∅, joined := ∅ }

theorem le_memoless (s : EdgeStore L K) : s ≤ s.memoless := le_remember s ∅ ∅

@[simp] theorem memoless_slot? (s : EdgeStore L K) (ef : EdgeRef) :
    s.memoless.slot? ef = s.slot? ef := rfl

@[simp] theorem memoless_free (s : EdgeStore L K) : s.memoless.free = s.free := rfl

@[simp] theorem memoless_canon (s : EdgeStore L K) : s.memoless.canon = s.canon := rfl

@[simp] theorem memoless_joinLimit (s : EdgeStore L K) : s.memoless.joinLimit = s.joinLimit := rfl

theorem memoless_markTo (s : EdgeStore L K) (n : Nat) (marked : BitSet) (ef : EdgeRef) :
    s.memoless.markTo n marked ef = s.markTo n marked ef := by
  induction n generalizing marked ef with
  | zero => rfl
  | succ n ih =>
    have hmark : s.memoless.markTo n = s.markTo n := by
      funext marked ef
      exact ih marked ef
    rw [markTo, markTo, hmark]
    rfl

theorem memoless_mark (s : EdgeStore L K) (roots : List EdgeRef) :
    s.memoless.mark roots = s.mark roots := by
  unfold mark
  simp only [memoless_markTo]
  rfl

variable [Payload K L]

theorem memoless_intern (s : EdgeStore L K) (node : EdgeNode L K) :
    s.memoless.intern node = ((s.intern node).1, (s.intern node).2.memoless) := by
  unfold intern
  rw [memoless_canon]
  cases s.canon.find? node with
  | some ef => rfl
  | none =>
    unfold allocate
    rw [memoless_free]
    cases s.free <;> rfl

theorem memoless_freeAll (s : EdgeStore L K) (is : List Nat) :
    is.foldl freeSlot s.memoless = (is.foldl freeSlot s).memoless := by
  induction is generalizing s with
  | nil => rfl
  | cons i is ih =>
    have hfree : s.memoless.freeSlot i = (s.freeSlot i).memoless := by
      unfold freeSlot
      rw [memoless_slot?]
      cases s.slot? ⟨i⟩ <;> rfl
    rw [List.foldl_cons, List.foldl_cons, hfree, ih]

/-- A sweep does the same without memo tables. -/
theorem sweep_memoless {roots : List EdgeRef} (hs : s.sweep roots = .ok (n, s')) :
    s.memoless.sweep roots = .ok (n, s'.memoless) := by
  simp only [sweep, bind_eq_ok, pure_eq_ok] at hs ⊢
  obtain ⟨marked, hmark, hs⟩ := hs
  obtain ⟨rfl, rfl⟩ := Prod.mk.inj hs
  refine ⟨marked, (memoless_mark s.forget roots).trans hmark, ?_⟩
  have hfree := memoless_freeAll s.forget (s.forget.unmarked marked)
  exact congrArg (fun t => (t.swept - s.swept, t)) hfree

variable [JoinLattice L] [DecidableEq L]

/-! ## Operations that remember nothing -/

/-- The composition, re-associating at most `n` levels of the first operand. -/
def composeAfreshTo :
    Nat → EdgeStore L K → EdgeRef → EdgeRef → Except Fault (EdgeRef × EdgeStore L K)
  | 0, _, first, _ => .error (.notAlive first.index)
  | n + 1, s, first, second =>
    if first = .identity then .ok (second, s)
    else if second = .identity then .ok (first, s)
    else composeWith (composeAfreshTo n) s first second

/-- The function that applies `first`, then `second`. -/
def composeAfresh (s : EdgeStore L K) (first second : EdgeRef) :
    Except Fault (EdgeRef × EdgeStore L K) :=
  composeAfreshTo (s.height first + 1) s first second

/-- The pointwise join of two functions. -/
def joinAfresh (s : EdgeStore L K) (a b : EdgeRef) : Except Fault (EdgeRef × EdgeStore L K) :=
  if a = b then .ok (a, s) else s.joinOrdered (joinKey a b).1 (joinKey a b).2

theorem Regular.memoless (h : Regular s) : Regular s.memoless :=
  h.remember (fun _ _ _ hab => by cases hab) (fun _ _ _ hab => by cases hab)

theorem memoless_constant (s : EdgeStore L K) (v : L) :
    s.memoless.constant v = ((s.constant v).1, (s.constant v).2.memoless) := by
  unfold constant
  split_ifs
  · rfl
  · rfl
  · exact memoless_intern s _

theorem memoless_leaf (s : EdgeStore L K) (e : EdgeFunction L K) :
    s.memoless.leaf e = ((s.leaf e).1, (s.leaf e).2.memoless) := by
  cases e with
  | constant v => exact memoless_constant s v
  | custom k =>
    simp only [leaf]
    split
    · exact memoless_constant s _
    · exact memoless_intern s _
  | _ => rfl

theorem memoless_makeJoin (s : EdgeStore L K) (seed : L) (parts : List EdgeRef) :
    s.memoless.makeJoin seed parts =
      ((s.makeJoin seed parts).1, (s.makeJoin seed parts).2.memoless) := by
  unfold makeJoin
  rw [memoless_joinLimit]
  cases parts with
  | nil =>
    simp only
    split_ifs
    · rfl
    · exact memoless_constant s seed
  | cons p rest =>
    simp only
    split_ifs
    · rfl
    · rfl
    · rfl
    · exact memoless_intern s _

theorem memoless_joinOrdered (h : s.joinOrdered a b = .ok (c, s')) :
    s.memoless.joinOrdered a b = .ok (c, s'.memoless) := by
  unfold joinOrdered at h ⊢
  split_ifs at h ⊢
  · obtain ⟨rfl, rfl⟩ := Prod.mk.inj (Except.ok.inj h)
    rfl
  · obtain ⟨rfl, rfl⟩ := Prod.mk.inj (Except.ok.inj h)
    rfl
  · obtain ⟨rfl, rfl⟩ := Prod.mk.inj (Except.ok.inj h)
    rfl
  simp only [bind_eq_ok] at h ⊢
  obtain ⟨f, hf, g, hg, h⟩ := h
  refine ⟨f, hf, g, hg, ?_⟩
  cases hk : foldJoin f g with
  | some k =>
    simp only [hk, pure_eq_ok] at h ⊢
    rw [memoless_leaf, h]
  | none =>
    simp only [hk, pure_eq_ok] at h ⊢
    rw [memoless_makeJoin, h]

/-! ## Recomputing what is stored -/

theorem ConstantAt.constant_eq (h : Regular s) {v : L} (hc : ConstantAt s v ef) :
    s.constant v = (ef, s) := by
  unfold EdgeStore.constant
  cases hc with
  | top hv => rw [if_pos (by simpa [isTop] using hv)]
  | bottom hne hv => rw [if_neg (by simpa [isTop] using hne), if_pos (by simpa [isBottom] using hv)]
  | node hne hne' hn =>
    rw [if_neg (by simpa [isTop] using hne), if_neg (by simpa [isBottom] using hne')]
    exact h.intern_eq rfl hn

theorem Made.makeJoin_eq (h : Regular s) {seed : L} {parts : List EdgeRef}
    (hc : Made s seed parts c) : s.makeJoin seed parts = (c, s) := by
  unfold Made at hc
  unfold EdgeStore.makeJoin
  cases parts with
  | nil =>
    simp only at hc ⊢
    split_ifs at hc ⊢
    · rw [hc]
    · exact ConstantAt.constant_eq h hc
  | cons p rest =>
    simp only at hc ⊢
    split_ifs at hc ⊢
    · rw [hc]
    · rw [hc]
    · rw [hc]
    · exact h.intern_eq rfl hc

section Cacheable

variable (hcacheable : ∀ k : K, Payload.cacheable L k = true)

include hcacheable

theorem LeafAt.leaf_eq (h : Regular s) {k : K} (hc : LeafAt s (.custom k) ef) :
    s.leaf (.custom k) = (ef, s) := by
  unfold EdgeStore.leaf
  cases hc with
  | folded hk hc =>
    simp only [hk]
    exact hc.constant_eq h
  | custom hk hn =>
    simp only [hk]
    exact h.intern_eq (by simp [kind?, hcacheable]) hn

/-- A composition whose handle is stored is recomputed as that handle, and nothing is stored. -/
theorem Composes.composeAfreshTo_eq (h : Regular s) (ha : Within s n a) (hc : Composes s m a b c) :
    composeAfreshTo n s a b = .ok (c, s) := by
  induction n generalizing m a b c with
  | zero => cases ha
  | succ n ih =>
    cases m with
    | zero => cases hc
    | succ m =>
    unfold Composes at hc
    rw [composeAfreshTo]
    split_ifs at hc ⊢
    · rw [hc]
    · rw [hc]
    obtain ⟨f, g, hf, hg, hc⟩ := hc
    obtain ⟨f', hf', hops⟩ := ha
    obtain rfl := Option.some.inj (hf.symm.trans hf')
    rw [composeWith_eq hf hg]
    unfold ComposesNodes at hc
    cases hgc : g.constant? with
    | some v =>
      simp only [hgc] at hc ⊢
      rw [hc]
    | none =>
    cases hfc : f.constant? with
    | some v =>
      simp only [hgc, hfc] at hc ⊢
      obtain ⟨ψ, hψ, hc⟩ := hc
      rw [h.eval hψ v, ok_bind, hc.constant_eq h]
      rfl
    | none =>
    simp only [hgc, hfc] at hc ⊢
    cases hk : foldCompose f g with
    | some k =>
      simp only [hk] at hc ⊢
      rw [hc.leaf_eq hcacheable h]
    | none =>
    simp only [hk] at hc ⊢
    cases f with
    | compose x y =>
      obtain ⟨tail, htail, hc⟩ := hc
      have hy := ih (hops y (by simp [EdgeNode.operands])) htail
      have hx := ih (hops x (by simp [EdgeNode.operands])) hc
      simp only [hy, ok_bind, hx]
    | _ => exact congrArg Except.ok (h.intern_eq rfl hc)

/-- A join whose handle is stored is recomputed as that handle, and nothing is stored. -/
theorem Joined.joinOrdered_eq (h : Regular s) (hne : a ≠ b) (hc : Joined s a b c) :
    s.joinOrdered a b = .ok (c, s) := by
  unfold Joined at hc
  unfold EdgeStore.joinOrdered
  rw [if_neg hne] at hc
  split_ifs at hc ⊢
  · rw [hc]
  · rw [hc]
  · rw [hc]
  obtain ⟨f, g, hf, hg, hc⟩ := hc
  rw [node_eq_ok.2 hf, ok_bind, node_eq_ok.2 hg, ok_bind]
  cases hk : foldJoin f g with
  | some k =>
    simp only [hk] at hc ⊢
    rw [hc.leaf_eq hcacheable h]
    rfl
  | none =>
    simp only [hk] at hc ⊢
    rw [hc.makeJoin_eq h]
    rfl

/-! ## Remembering changes nothing -/

/-- A join does the same without memo tables. -/
theorem join_memoless (h : Regular s) (hc : s.join a b = .ok (c, s')) :
    s.memoless.joinAfresh a b = .ok (c, s'.memoless) := by
  rw [join] at hc
  rw [joinAfresh]
  split_ifs at hc ⊢ with hab
  · obtain ⟨rfl, rfl⟩ := Prod.mk.inj (Except.ok.inj hc)
    rfl
  have hkey : (joinKey a b).1 ≠ (joinKey a b).2 := by
    unfold joinKey
    split_ifs
    · exact hab
    · exact Ne.symm hab
  unfold Memo.lookup at hc
  cases hknown : s.joined.table[joinKey a b]? with
  | some ef =>
    simp only [hknown] at hc
    obtain ⟨rfl, rfl⟩ := Prod.mk.inj (Except.ok.inj hc)
    obtain ⟨-, -, hj⟩ := h.joined _ _ _ hknown
    exact (hj.mono (le_memoless s)).joinOrdered_eq hcacheable h.memoless hkey
  | none =>
    simp only [hknown, bind_eq_ok] at hc
    obtain ⟨⟨ef, t⟩, hjoin, hc⟩ := hc
    obtain ⟨rfl, rfl⟩ := Prod.mk.inj (pure_eq_ok.1 hc)
    exact (memoless_joinOrdered hjoin :)

variable [Std.TransOrd L] [Std.LawfulEqOrd L] [Std.TransOrd K] [Std.LawfulEqOrd K]

/-- A composition does the same without memo tables. -/
theorem composeTo_memoless (h : Regular s) (ha : Within s n a) (hb : s.Alive b)
    (hc : composeTo n s a b = .ok (c, s')) :
    composeAfreshTo n s.memoless a b = .ok (c, s'.memoless) := by
  induction n generalizing s a b c s' with
  | zero => cases ha
  | succ n ih =>
    by_cases haid : a = .identity
    · rw [composeTo, if_pos haid] at hc
      obtain ⟨rfl, rfl⟩ := Prod.mk.inj (Except.ok.inj hc)
      rw [composeAfreshTo, if_pos haid]
    by_cases hbid : b = .identity
    · rw [composeTo, if_neg haid, if_pos hbid] at hc
      obtain ⟨rfl, rfl⟩ := Prod.mk.inj (Except.ok.inj hc)
      rw [composeAfreshTo, if_neg haid, if_pos hbid]
    rw [composeTo_eq haid hbid, Memo.lookup] at hc
    cases hknown : s.composed.table[(a, b)]? with
    | some ef =>
      simp only [hknown] at hc
      obtain ⟨rfl, rfl⟩ := Prod.mk.inj (Except.ok.inj hc)
      obtain ⟨-, -, m, hm⟩ := h.composed a b _ hknown
      have hle := le_memoless s
      exact (hm.mono hle).composeAfreshTo_eq hcacheable h.memoless (ha.mono hle)
    | none =>
      simp only [hknown, bind_eq_ok] at hc
      obtain ⟨⟨ef, t⟩, hstep, hc⟩ := hc
      obtain ⟨rfl, rfl⟩ := Prod.mk.inj (pure_eq_ok.1 hc)
      rw [composeAfreshTo, if_neg haid, if_neg hbid]
      generalize hs₁ : ({ s with
        composed := { s.composed with misses := s.composed.misses + 1 } } : EdgeStore L K) = s₁
        at hstep
      have hmemoless : s.memoless = s₁.memoless := hs₁ ▸ rfl
      have hle₁ : s ≤ s₁ := hs₁ ▸ le_remember ..
      have h₁ : Regular s₁ := hs₁ ▸ h.remember h.composed h.joined
      obtain ⟨f, hf, hops⟩ := ha.mono hle₁
      obtain ⟨g, hg⟩ := hb.mono hle₁
      change composeWith _ s.memoless a b = .ok (ef, t.memoless)
      have hf' : s₁.memoless.node? a = some f := hf
      have hg' : s₁.memoless.node? b = some g := hg
      rw [hmemoless, composeWith_eq hf' hg']
      rw [composeWith_eq hf hg] at hstep
      cases hgc : g.constant? with
      | some v =>
        simp only [hgc] at hstep ⊢
        obtain ⟨rfl, rfl⟩ := Prod.mk.inj (Except.ok.inj hstep)
        rfl
      | none =>
      cases hfc : f.constant? with
      | some v =>
        obtain ⟨ψ, hψ⟩ := h₁.means ⟨g, hg⟩
        simp only [hgc, hfc] at hstep ⊢
        rw [h₁.eval hψ v, ok_bind, pure_eq_ok] at hstep
        rw [h₁.memoless.eval (hψ.mono (le_memoless s₁)) v, ok_bind, memoless_constant, hstep]
        rfl
      | none =>
      simp only [hgc, hfc] at hstep ⊢
      cases hk : foldCompose f g with
      | some k =>
        simp only [hk] at hstep ⊢
        rw [memoless_leaf, Except.ok.inj hstep]
      | none =>
      simp only [hk] at hstep ⊢
      cases f with
      | compose x y =>
        -- The second composition starts in the store that the first one leaves.
        simp only [bind_eq_ok] at hstep
        obtain ⟨⟨tail, u⟩, htail, hstep⟩ := hstep
        have hx := hops x (by simp [EdgeNode.operands])
        have hy := hops y (by simp [EdgeNode.operands])
        obtain ⟨tail', u', htail', hu, hle, m, hm⟩ := h₁.composeTo hy ⟨g, hg⟩
        obtain ⟨rfl, rfl⟩ := Prod.mk.inj (Except.ok.inj (htail.symm.trans htail'))
        have halive := hm.alive hu (hy.mono hle).node? ⟨g, hle.1 _ _ hg⟩
        simp only [ih h₁ hy ⟨g, hg⟩ htail, ok_bind]
        exact ih hu (hx.mono hle) halive hstep
      | _ =>
        rw [Except.ok.injEq] at hstep ⊢
        rw [memoless_intern, hstep]

end Cacheable

/-! ## Every operation -/

/-- What an operation returns. -/
inductive Answer where
  | handle (ef : EdgeRef)
  | freed (count : Nat)
  deriving DecidableEq, Repr

namespace Op

/-- What an operation returns and the store after it, given how to compose and to join. -/
def callWith
    (compose join : EdgeStore L K → EdgeRef → EdgeRef → Except Fault (EdgeRef × EdgeStore L K))
    (s : EdgeStore L K) : Op L K → Except Fault (Answer × EdgeStore L K)
  | .leaf e => .ok (.handle (s.leaf e).1, (s.leaf e).2)
  | .constant c => .ok (.handle (s.constant c).1, (s.constant c).2)
  | .compose first second => do
    let (ef, s) ← compose s first second
    return (.handle ef, s)
  | .join a b => do
    let (ef, s) ← join s a b
    return (.handle ef, s)
  | .sweep roots => do
    let (n, s) ← s.sweep roots
    return (.freed n, s)

/-- What an operation returns and the store after it. -/
def call : EdgeStore L K → Op L K → Except Fault (Answer × EdgeStore L K) :=
  callWith EdgeStore.compose EdgeStore.join

/-- What an operation that remembers nothing returns and the store after it. -/
def callAfresh : EdgeStore L K → Op L K → Except Fault (Answer × EdgeStore L K) :=
  callWith composeAfresh joinAfresh

end Op

/-- The store that operations which remember nothing make of a new one. A handle that is not alive
is a fault. -/
def buildAfresh (limit : Nat) (ops : List (Op L K)) : Except Fault (EdgeStore L K) := do
  ops.foldlM (fun s op => do
    op.handles.forM fun ef => discard (s.node ef)
    return (← op.callAfresh s).2) (← create limit)

variable [Std.TransOrd L] [Std.LawfulEqOrd L] [Std.TransOrd K] [Std.LawfulEqOrd K]

/-- An operation on live handles returns the same and leaves the same store without memo tables. -/
theorem Regular.call_memoless (hcacheable : ∀ k : K, Payload.cacheable L k = true) (h : Regular s)
    {op : Op L K} (halive : ∀ ef ∈ op.handles, s.Alive ef) :
    ∃ x s', op.call s = .ok (x, s') ∧ op.perform s = .ok s' ∧
      op.callAfresh s.memoless = .ok (x, s'.memoless) := by
  cases op with
  | leaf e =>
    refine ⟨_, _, rfl, rfl, ?_⟩
    simp only [Op.callAfresh, Op.callWith, memoless_leaf]
  | constant v =>
    refine ⟨_, _, rfl, rfl, ?_⟩
    simp only [Op.callAfresh, Op.callWith, memoless_constant]
  | compose f g =>
    have hf := halive f (by simp [Op.handles])
    have hg := halive g (by simp [Op.handles])
    obtain ⟨c, s', hc, -⟩ := h.compose hf hg
    have hc' := composeTo_memoless hcacheable h (h.within hf (Nat.lt_succ_self _)) hg hc
    exact ⟨.handle c, s', bind_eq_ok.2 ⟨_, hc, rfl⟩, bind_eq_ok.2 ⟨_, hc, rfl⟩,
      bind_eq_ok.2 ⟨_, hc', rfl⟩⟩
  | join a b =>
    have ha := halive a (by simp [Op.handles])
    have hb := halive b (by simp [Op.handles])
    obtain ⟨c, s', hc, -⟩ := h.join ha hb
    have hc' := join_memoless hcacheable h hc
    exact ⟨.handle c, s', bind_eq_ok.2 ⟨_, hc, rfl⟩, bind_eq_ok.2 ⟨_, hc, rfl⟩,
      bind_eq_ok.2 ⟨_, hc', rfl⟩⟩
  | sweep roots =>
    obtain ⟨n, s', hs, -⟩ := h.sweep halive
    have hs' := sweep_memoless hs
    exact ⟨.freed n, s', bind_eq_ok.2 ⟨_, hs, rfl⟩, bind_eq_ok.2 ⟨_, hs, rfl⟩,
      bind_eq_ok.2 ⟨_, hs', rfl⟩⟩

theorem buildAfresh_of_build (hcacheable : ∀ k : K, Payload.cacheable L k = true) {limit : Nat}
    {ops : List (Op L K)} (h : build limit ops = .ok s) :
    buildAfresh limit ops = .ok s.memoless := by
  rw [build, bind_eq_ok] at h
  obtain ⟨s₀, h₀, h⟩ := h
  obtain ⟨-, rfl⟩ := create_eq_ok.1 h₀
  refine (foldlM_ok (fun done s => Regular s ∧ buildAfresh limit done = .ok s.memoless) h
    ⟨regular_withLimit limit, bind_eq_ok.2 ⟨_, h₀, rfl⟩⟩ ?_).2
  intro done op t t' _ hdone hstep
  obtain ⟨ht, hbuild⟩ := hdone
  rw [bind_eq_ok] at hstep
  obtain ⟨⟨⟩, hcheck, hstep⟩ := hstep
  have halive := alive_of_forM hcheck
  obtain ⟨x, u, -, hu, hafresh⟩ := ht.call_memoless hcacheable halive
  obtain rfl := Except.ok.inj (hu.symm.trans hstep)
  obtain ⟨t', ht', h', -⟩ := ht.perform halive
  obtain rfl := Except.ok.inj (ht'.symm.trans hstep)
  refine ⟨h', ?_⟩
  rw [buildAfresh, bind_eq_ok] at hbuild ⊢
  obtain ⟨s₁, h₁, hbuild⟩ := hbuild
  refine ⟨s₁, h₁, ?_⟩
  rw [List.foldlM_append, hbuild, ok_bind, List.foldlM_cons, bind_eq_ok]
  refine ⟨t'.memoless, ?_, rfl⟩
  rw [bind_eq_ok]
  exact ⟨⟨⟩, hcheck, bind_eq_ok.2 ⟨_, hafresh, rfl⟩⟩

/-- **Memo tables are transparent.** If all payloads are cacheable, a store that remembers nothing
goes through the same operations with the same slots, free list, canonical tables and counters, and
the next operation returns the same handle, or frees as many nodes, and leaves the same again. -/
theorem memo_transparent (hcacheable : ∀ k : K, Payload.cacheable L k = true) (limit : Nat)
    (ops : List (Op L K)) (s : EdgeStore L K) (hs : build limit ops = .ok s) :
    buildAfresh limit ops = .ok s.memoless ∧
    ∀ op : Op L K, (∀ ef ∈ op.handles, s.Alive ef) →
      ∃ x s', op.call s = .ok (x, s') ∧ op.perform s = .ok s' ∧
        op.callAfresh s.memoless = .ok (x, s'.memoless) := by
  obtain ⟨h, -⟩ := regular_of_build hs
  exact ⟨buildAfresh_of_build hcacheable hs, fun op halive => h.call_memoless hcacheable halive⟩

/-- Two maps, compositions of them and a join, of which a sweep leaves one composition, and then one
of the compositions again. -/
def repeated : List (Op Peak PeakMap) :=
  [.leaf (.custom (.add 1)), .leaf (.custom (.cap 5)), .compose ⟨3⟩ ⟨4⟩, .compose ⟨5⟩ ⟨3⟩,
    .join ⟨5⟩ ⟨3⟩, .sweep [⟨7⟩], .compose ⟨3⟩ ⟨4⟩]

/-- The composition is in a slot that was used before. To compose once more is a look-up with memo
tables and finds the same handle without them. -/
theorem memo_transparent_repeated :
    ∃ s s', build 2 repeated = .ok s ∧ buildAfresh 2 repeated = .ok s.memoless ∧
      Op.call s (.compose ⟨3⟩ ⟨4⟩) = .ok (.handle ⟨8⟩, s') ∧ s'.hits = s.hits + 1 ∧
      Op.callAfresh s.memoless (.compose ⟨3⟩ ⟨4⟩) = .ok (.handle ⟨8⟩, s'.memoless) := by
  have hrun : (do
      let s ← build 2 repeated
      let r ← Op.call s (.compose ⟨3⟩ ⟨4⟩)
      return (s.node? ⟨3⟩, s.node? ⟨4⟩, r.1, s.hits, r.2.hits)) =
      .ok (some (.custom (.add 1)), some (.custom (.cap 5)), .handle ⟨8⟩, 0, 1) := by
    decide +kernel
  simp only [bind_eq_ok, pure_eq_ok, Prod.mk.injEq] at hrun
  obtain ⟨s, hs, ⟨x, s'⟩, hcall, h₃, h₄, rfl, hhits, hhits'⟩ := hrun
  obtain ⟨hbuild, hnext⟩ := memo_transparent (fun _ => rfl) 2 repeated s hs
  obtain ⟨y, t, hcall', -, hafresh⟩ := hnext (.compose ⟨3⟩ ⟨4⟩) (by
    intro ef hef
    simp only [Op.handles, List.mem_cons, List.not_mem_nil, or_false] at hef
    rcases hef with rfl | rfl
    · exact ⟨_, h₃⟩
    · exact ⟨_, h₄⟩)
  obtain ⟨rfl, rfl⟩ := Prod.mk.inj (Except.ok.inj (hcall.symm.trans hcall'))
  exact ⟨s, s', hs, hbuild, hcall, by rw [hhits, hhits'], hafresh⟩

end EdgeStore

end Tabulation
