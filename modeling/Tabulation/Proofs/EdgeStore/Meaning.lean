import Tabulation.EdgeStore.Combine
import Tabulation.Proofs.Maps
import Tabulation.Proofs.Program

/-!
# The meaning of stored edge functions

A handle stands for a function on values. `Means s ef φ` reads that function off the nodes of the
store: a leaf means the client's function, a composition means the composition of what its operands
mean, a join means the pointwise join of its seed and of what its parts mean.

**Determinacy.** A handle means at most one function (`Means.unique`), and evaluation computes it
(`Means.eval_eq`).

**Growth.** `s ≤ s'` says that live handles keep their nodes. Meaning is kept along it, so whatever
is known about a handle stays true while the store grows. Joins are remembered while it does,
`KeepsJoins`; a store is `Unwidened` if all of them mean the pointwise join.
-/

namespace Tabulation

variable {L K : Type}

/-- The client's edge function that a leaf stands for. -/
def EdgeNode.leaf? : EdgeNode L K → Option (EdgeFunction L K)
  | .identity => some .identity
  | .allTop => some .allTop
  | .allBottom => some .allBottom
  | .constant c => some (.constant c)
  | .custom k => some (.custom k)
  | .compose .. | .join .. => none

namespace EdgeStore

section Parts

variable [JoinLattice L]

/-- The join of a seed and of the results of all parts. -/
def joinParts (seed : L) (parts : List EdgeRef) (Φ : EdgeRef → L → L) (v : L) : L :=
  parts.foldl (fun acc p => JoinLattice.join acc (Φ p v)) seed

theorem joinParts_congr {seed : L} {parts : List EdgeRef} {Φ Ψ : EdgeRef → L → L}
    (h : ∀ p ∈ parts, Φ p = Ψ p) : joinParts seed parts Φ = joinParts seed parts Ψ := by
  funext v
  unfold joinParts
  induction parts generalizing seed with
  | nil => rfl
  | cons p parts ih =>
    rw [List.foldl_cons, List.foldl_cons, h p List.mem_cons_self]
    exact ih fun q hq => h q (List.mem_cons_of_mem p hq)

end Parts

variable [Ord L] [Ord K]

theorem node_eq_ok {s : EdgeStore L K} {ef : EdgeRef} {node : EdgeNode L K} :
    s.node ef = .ok node ↔ s.node? ef = some node := by
  unfold EdgeStore.node
  cases s.node? ef <;> simp

/-- Live handles keep their nodes. -/
instance : LE (EdgeStore L K) :=
  ⟨fun s s' => (∀ ef node, s.node? ef = some node → s'.node? ef = some node) ∧
    s'.joinLimit = s.joinLimit ∧ s.interned ≤ s'.interned⟩

theorem le_refl (s : EdgeStore L K) : s ≤ s := ⟨fun _ _ h => h, rfl, Nat.le_refl _⟩

theorem le_trans {s t u : EdgeStore L K} (h : s ≤ t) (k : t ≤ u) : s ≤ u :=
  ⟨fun ef node hn => k.1 ef node (h.1 ef node hn), k.2.1.trans h.2.1, Nat.le_trans h.2.2 k.2.2⟩

/-- Memo tables hold no nodes. -/
theorem le_remember (s : EdgeStore L K) (composed joined : Memo (EdgeRef × EdgeRef) EdgeRef) :
    s ≤ { s with composed, joined } := ⟨fun _ _ h => h, rfl, Nat.le_refl _⟩

/-- All joins that were remembered still are. -/
def KeepsJoins (s s' : EdgeStore L K) : Prop :=
  ∀ (key : EdgeRef × EdgeRef) (c : EdgeRef), s.joined.table[key]? = some c →
    s'.joined.table[key]? = some c

theorem KeepsJoins.refl (s : EdgeStore L K) : KeepsJoins s s := fun _ _ h => h

theorem KeepsJoins.trans {s s' s'' : EdgeStore L K} (h : KeepsJoins s s') (k : KeepsJoins s' s'') :
    KeepsJoins s s'' := fun key c hc => k key c (h key c hc)

theorem KeepsJoins.of_eq {s s' : EdgeStore L K} (h : s'.joined.table = s.joined.table) :
    KeepsJoins s s' := fun _ _ hc => h ▸ hc

variable [JoinLattice L] [Payload K L]

/-- What a handle stands for. -/
inductive Means (s : EdgeStore L K) : EdgeRef → (L → L) → Prop
  | leaf {ef : EdgeRef} {node : EdgeNode L K} {e : EdgeFunction L K} :
      s.node? ef = some node → node.leaf? = some e → Means s ef e.apply
  | compose {ef f g : EdgeRef} {φ ψ : L → L} :
      s.node? ef = some (.compose f g) → Means s f φ → Means s g ψ → Means s ef (ψ ∘ φ)
  | join {ef : EdgeRef} {seed : L} {parts : List EdgeRef} (Φ : EdgeRef → L → L) :
      s.node? ef = some (.join seed parts) → (∀ p ∈ parts, Means s p (Φ p)) →
      Means s ef (joinParts seed parts Φ)

namespace Means

variable {s s' : EdgeStore L K} {ef : EdgeRef} {φ ψ : L → L}

/-- Only live handles mean something. -/
theorem node? (h : Means s ef φ) : ∃ node, s.node? ef = some node := by
  cases h with
  | leaf hn _ => exact ⟨_, hn⟩
  | compose hn _ _ => exact ⟨_, hn⟩
  | join _ hn _ => exact ⟨_, hn⟩

/-- What a leaf means. -/
theorem eq_apply (h : Means s ef φ) {node : EdgeNode L K} (hn : s.node? ef = some node)
    {e : EdgeFunction L K} (he : node.leaf? = some e) : φ = e.apply := by
  cases h with
  | leaf hn' he' =>
    obtain rfl := Option.some.inj (hn'.symm.trans hn)
    rw [Option.some.inj (he'.symm.trans he)]
  | compose hn' _ _ =>
    obtain rfl := Option.some.inj (hn'.symm.trans hn)
    cases he
  | join _ hn' _ =>
    obtain rfl := Option.some.inj (hn'.symm.trans hn)
    cases he

/-- What a composition means. -/
theorem of_compose (h : Means s ef φ) {f g : EdgeRef} (hn : s.node? ef = some (.compose f g)) :
    ∃ φ₁ φ₂, Means s f φ₁ ∧ Means s g φ₂ ∧ φ = φ₂ ∘ φ₁ := by
  cases h with
  | leaf hn' he =>
    obtain rfl := Option.some.inj (hn'.symm.trans hn)
    cases he
  | compose hn' hf hg =>
    cases hn'.symm.trans hn
    exact ⟨_, _, hf, hg, rfl⟩
  | join _ hn' _ => cases hn'.symm.trans hn

/-- What a join means. -/
theorem of_join (h : Means s ef φ) {seed : L} {parts : List EdgeRef}
    (hn : s.node? ef = some (.join seed parts)) :
    ∃ Φ, (∀ p ∈ parts, Means s p (Φ p)) ∧ φ = joinParts seed parts Φ := by
  cases h with
  | leaf hn' he =>
    obtain rfl := Option.some.inj (hn'.symm.trans hn)
    cases he
  | compose hn' _ _ => cases hn'.symm.trans hn
  | join Φ hn' hp =>
    cases hn'.symm.trans hn
    exact ⟨Φ, hp, rfl⟩

/-- A handle means at most one function. -/
theorem unique (h : Means s ef φ) (k : Means s ef ψ) : φ = ψ := by
  induction h generalizing ψ with
  | leaf hn he => exact (k.eq_apply hn he).symm
  | compose hn _ _ ihf ihg =>
    obtain ⟨φ₁, φ₂, hf, hg, rfl⟩ := k.of_compose hn
    rw [ihf hf, ihg hg]
  | join Φ hn _ ih =>
    obtain ⟨Ψ, hp, rfl⟩ := k.of_join hn
    exact joinParts_congr fun p hmem => ih p hmem (hp p hmem)

/-- Meaning is kept where nodes are kept. -/
theorem mono (h : Means s ef φ) (hle : s ≤ s') : Means s' ef φ := by
  induction h with
  | leaf hn he => exact .leaf (hle.1 _ _ hn) he
  | compose hn _ _ ihf ihg => exact .compose (hle.1 _ _ hn) ihf ihg
  | join Φ hn _ ih => exact .join Φ (hle.1 _ _ hn) ih

/-- Evaluation, when it returns, computes the meaning. -/
theorem evalTo_eq (h : Means s ef φ) {n : Nat} {v r : L} (hr : s.evalTo n ef v = .ok r) :
    r = φ v := by
  induction h generalizing n v r with
  | @leaf ef node e hn he =>
    cases n with
    | zero => cases hr
    | succ n =>
      rw [evalTo, bind_eq_ok] at hr
      obtain ⟨node', hnode, hr⟩ := hr
      rw [node_eq_ok] at hnode
      obtain rfl := Option.some.inj (hnode.symm.trans hn)
      cases node' with
      | compose _ _ => cases he
      | join _ _ => cases he
      | _ => cases he; cases hr; rfl
  | compose hn _ _ ihf ihg =>
    cases n with
    | zero => cases hr
    | succ n =>
      rw [evalTo, bind_eq_ok] at hr
      obtain ⟨node, hnode, hr⟩ := hr
      rw [node_eq_ok] at hnode
      obtain rfl := Option.some.inj (hn.symm.trans hnode)
      obtain ⟨w, hw, hr⟩ := bind_eq_ok.1 hr
      rw [ihg hr, ihf hw]
      rfl
  | @join ef seed parts Φ hn _ ih =>
    cases n with
    | zero => cases hr
    | succ n =>
      rw [evalTo, bind_eq_ok] at hr
      obtain ⟨node, hnode, hr⟩ := hr
      rw [node_eq_ok] at hnode
      obtain rfl := Option.some.inj (hn.symm.trans hnode)
      refine foldlM_ok (fun done acc => acc = joinParts seed done Φ v) hr rfl ?_
      intro done p acc acc' hp hacc hstep
      obtain ⟨w, hw, hstep⟩ := bind_eq_ok.1 hstep
      rw [← pure_eq_ok.1 hstep, hacc, ih p hp hw]
      simp [joinParts]

theorem eval_eq (h : Means s ef φ) {v r : L} (hr : s.eval ef v = .ok r) : r = φ v :=
  h.evalTo_eq hr

end Means

/-! ## Joins that are pointwise -/

/-- All joins that are remembered are pointwise: none of them was widened. -/
def Unwidened (s : EdgeStore L K) : Prop :=
  ∀ a b c φ ψ χ, s.joined.table[(a, b)]? = some c → Means s a φ → Means s b ψ → Means s c χ →
    ∀ v, χ v = JoinLattice.join (φ v) (ψ v)

theorem Unwidened.of_le {s s' : EdgeStore L K} (h : Unwidened s') (hle : s ≤ s')
    (hjoins : KeepsJoins s s') : Unwidened s := fun a b c φ ψ χ hc hφ hψ hχ =>
  h a b c φ ψ χ (hjoins _ c hc) (hφ.mono hle) (hψ.mono hle) (hχ.mono hle)

end EdgeStore

end Tabulation
