import Mathlib
import Tabulation.EdgeFunction.Basic

/-!
# Scales of values and payloads

A `Scale` bounds how often a function can be refined by joins. Its `depth` grows along the order of
values, and its `height` grows where the client joins two payloads.

What the client answers for the join of two payloads must be cacheable, since a payload that is not
gets a new handle whenever it is stored, and it must not be all-top, since all-top is where
everything begins.

**Scales.** `ofChains` is for lattices without long chains and payloads that the client cannot join.
`ofFinite` is for finite lattices and finitely many payloads whose joins form a partial order.
-/

namespace Tabulation

variable {L K : Type} [JoinLattice L] [Payload K L]

/-- Bounds for how often values and payloads can grow. -/
structure Scale (L K : Type) [JoinLattice L] [Payload K L] where
  depth : L → Nat
  maxDepth : Nat
  height : K → Nat
  maxHeight : Nat
  depth_lt : ∀ {u v : L}, Below u v → u ≠ v → depth u < depth v
  depth_le : ∀ v, depth v ≤ maxDepth
  height_le : ∀ k, height k ≤ maxHeight
  join_payload : ∀ {f g k : K}, Payload.constant? (L := L) f = none →
    Payload.constant? (L := L) g = none → Payload.join? L f g = some k →
    Payload.constant? (L := L) k = none → Payload.cacheable L k = true ∧
      (k = f ∨ height f < height k) ∧ (k = g ∨ height g < height k)
  join_constant : ∀ {f g k : K} {c : L}, Payload.constant? (L := L) f = none →
    Payload.constant? (L := L) g = none → Payload.join? L f g = some k →
    Payload.constant? k = some c → c ≠ top ∧ height f < maxHeight ∧ height g < maxHeight

namespace Scale

variable (S : Scale L K)

theorem depth_mono {u v : L} (h : Below u v) : S.depth u ≤ S.depth v := by
  by_cases heq : u = v
  · rw [heq]
  · exact Nat.le_of_lt (S.depth_lt h heq)

theorem depth_pos [LawfulJoin L] {v : L} (h : v ≠ top) : 0 < S.depth v :=
  Nat.zero_lt_of_lt (S.depth_lt (top_below v) (Ne.symm h))

theorem depth_lt_max [LawfulJoin L] {v : L} (h : v ≠ bottom) : S.depth v < S.maxDepth :=
  Nat.lt_of_lt_of_le (S.depth_lt (below_bottom v) h) (S.depth_le _)

end Scale

/-! ## Chains of values -/

/-- The second value covers more than the first. -/
def StrictlyBelow (u v : L) : Prop := Below u v ∧ u ≠ v

theorem StrictlyBelow.trans [LawfulJoin L] {u v w : L} (h : StrictlyBelow u v)
    (h' : StrictlyBelow v w) : StrictlyBelow u w := by
  refine ⟨h.1.trans h'.1, fun heq => h.2 (Below.antisymm h.1 ?_)⟩
  exact heq ▸ h'.1

/-- Every chain of values that goes up from top has at most `n` steps. -/
def ChainsWithin (L : Type) [JoinLattice L] (n : Nat) : Prop :=
  ∀ vs : List L, (top :: vs).IsChain StrictlyBelow → vs.length ≤ n

/-- What grows along the order bounds the length of chains. -/
theorem ChainsWithin.of_depth (depth : L → Nat) {n : Nat}
    (hlt : ∀ u v, Below u v → u ≠ v → depth u < depth v) (hle : ∀ v, depth v ≤ n) :
    ChainsWithin L n := by
  have key : ∀ (vs : List L) (u : L), (u :: vs).IsChain StrictlyBelow →
      depth u + vs.length ≤ n := by
    intro vs
    induction vs with
    | nil => exact fun u _ => hle u
    | cons v vs ih =>
      intro u h
      obtain ⟨huv, hvs⟩ := List.isChain_cons_cons.1 h
      have := ih v hvs
      have := hlt u v huv.1 huv.2
      rw [List.length_cons]
      omega
  intro vs h
  exact Nat.le_trans (Nat.le_add_left _ _) (key vs top h)

/-- A chain of a given number of steps leads from top to the value. -/
def ReachedIn (v : L) (n : Nat) : Prop :=
  ∃ vs : List L, vs.length = n ∧ (top :: vs).IsChain StrictlyBelow ∧
    (top :: vs).getLast (List.cons_ne_nil _ _) = v

theorem ReachedIn.next {u v : L} {n : Nat} (h : ReachedIn u n) (huv : StrictlyBelow u v) :
    ReachedIn v (n + 1) := by
  obtain ⟨vs, rfl, hchain, rfl⟩ := h
  refine ⟨vs ++ [v], by simp, ?_, by simp⟩
  rw [← List.cons_append]
  refine List.isChain_append.2 ⟨hchain, .singleton _, fun x hx y hy => ?_⟩
  rw [List.getLast?_eq_getLast_of_ne_nil (List.cons_ne_nil _ _)] at hx
  obtain rfl := Option.some.inj hx
  obtain rfl := Option.some.inj hy
  exact huv

open Classical in
/-- The length of the longest chain from top to a value. -/
noncomputable def chainDepth (n : Nat) (v : L) : Nat := Nat.findGreatest (ReachedIn v) n

open Classical in
theorem chainDepth_le (n : Nat) (v : L) : chainDepth n v ≤ n := Nat.findGreatest_le n

open Classical in
theorem chainDepth_lt [LawfulJoin L] {n : Nat} (hn : ChainsWithin L n) {u v : L}
    (huv : StrictlyBelow u v) : chainDepth n u < chainDepth n v := by
  have hle : ∀ {w : L} {m : Nat}, ReachedIn w m → m ≤ n := fun ⟨vs, hlen, hchain, _⟩ =>
    hlen ▸ hn vs hchain
  have hreached : ∀ w : L, ∃ m, ReachedIn w m := fun w => by
    have htop : ReachedIn (top : L) 0 := ⟨[], rfl, .singleton _, rfl⟩
    by_cases hw : w = top
    · exact ⟨0, hw ▸ htop⟩
    · exact ⟨1, htop.next ⟨top_below w, Ne.symm hw⟩⟩
  obtain ⟨m, hm⟩ := hreached u
  have hu : ReachedIn u (chainDepth n u) := Nat.findGreatest_spec (hle hm) hm
  have hv := hu.next huv
  exact Nat.le_findGreatest (hle hv) hv

/-- The scale of a lattice without long chains, for payloads that the client cannot join. -/
noncomputable def Scale.ofChains [LawfulJoin L] {n : Nat} (hn : ChainsWithin L n)
    (hjoin : ∀ f g : K, Payload.join? L f g = none) : Scale L K where
  depth := chainDepth n
  maxDepth := n
  height _ := 0
  maxHeight := 0
  depth_lt h hne := chainDepth_lt hn ⟨h, hne⟩
  depth_le := chainDepth_le n
  height_le _ := Nat.le_refl 0
  join_payload _ _ hk := by rw [hjoin] at hk; cases hk
  join_constant _ _ hk := by rw [hjoin] at hk; cases hk

/-! ## Finitely many payloads -/

/-- The client's joins, where it answers, are associative, commutative and idempotent. -/
structure OrderedJoins (L K : Type) [JoinLattice L] [Payload K L] : Prop where
  comm : ∀ f g : K, Payload.join? L f g = Payload.join? L g f
  assoc : ∀ {f g h x y : K}, Payload.join? L f g = some x → Payload.join? L x h = some y →
    ∃ z, Payload.join? L g h = some z ∧ Payload.join? L f z = some y
  idem : ∀ {f k : K}, Payload.join? L f f = some k → k = f

/-- The second payload is the first one, or a join with it. -/
def Under (L : Type) [JoinLattice L] [Payload K L] (f k : K) : Prop :=
  k = f ∨ ∃ g, Payload.join? L f g = some k

/-- The second payload is another one than the first, and a join with it. -/
def StrictlyUnder (L : Type) [JoinLattice L] [Payload K L] (f k : K) : Prop := Under L f k ∧ k ≠ f

namespace OrderedJoins

variable (h : OrderedJoins L K) {f g k : K}
include h

theorem under_right (hk : Payload.join? L f g = some k) : Under L g k :=
  .inr ⟨f, (h.comm g f).trans hk⟩

theorem trans {l : K} (hfk : Under L f k) (hkl : Under L k l) : Under L f l := by
  rcases hfk with rfl | ⟨g, hg⟩
  · exact hkl
  rcases hkl with rfl | ⟨g', hg'⟩
  · exact .inr ⟨g, hg⟩
  obtain ⟨z, -, hz⟩ := h.assoc hg hg'
  exact .inr ⟨z, hz⟩

/-- If `f` joins to `k` and back to `f`, what was joined is absorbed by `f` already. -/
theorem antisymm (hfk : Under L f k) (hkf : Under L k f) : k = f := by
  rcases hfk with rfl | ⟨g, hg⟩
  · rfl
  rcases hkf with rfl | ⟨g', hg'⟩
  · rfl
  obtain ⟨z, hz, hfz⟩ := h.assoc hg hg'
  obtain ⟨w, hw, hfw⟩ := h.assoc hfz hg
  obtain ⟨v, hv, hgv⟩ := h.assoc ((h.comm g' g).trans hz) hw
  obtain rfl := h.idem hv
  obtain rfl : z = w := Option.some.inj (((h.comm g' v).trans hz).symm.trans hgv)
  exact Option.some.inj (hfw.symm.trans hfz)

theorem strict_trans (f k l : K) (hfk : StrictlyUnder L f k) (hkl : StrictlyUnder L k l) :
    StrictlyUnder L f l := by
  refine ⟨h.trans hfk.1 hkl.1, fun heq => hfk.2 (h.antisymm hfk.1 ?_)⟩
  exact heq ▸ hkl.1

end OrderedJoins

open Classical in
/-- The number of elements that stand before another one. -/
noncomputable def countBefore {α : Type} [Fintype α] (R : α → α → Prop) (b : α) : Nat :=
  (Finset.univ.filter fun a => R a b).card

section Count

variable {α : Type} [Fintype α] {R : α → α → Prop}

theorem countBefore_le (R : α → α → Prop) (b : α) : countBefore R b ≤ Fintype.card α :=
  Finset.card_le_univ _

theorem countBefore_lt_card (irrefl : ∀ a, ¬ R a a) (b : α) :
    countBefore R b < Fintype.card α := by
  refine Finset.card_lt_univ_of_notMem (x := b) fun hb => irrefl b ?_
  simpa using hb

theorem countBefore_lt (irrefl : ∀ a, ¬ R a a) (trans : ∀ a b c, R a b → R b c → R a c) {a b : α}
    (h : R a b) : countBefore R a < countBefore R b := by
  classical
  have hsub : Finset.univ.filter (R · a) ⊆ Finset.univ.filter (R · b) := fun x hx => by
    rw [Finset.mem_filter] at hx ⊢
    exact ⟨hx.1, trans x a b hx.2 h⟩
  have hssub : Finset.univ.filter (R · a) ⊂ Finset.univ.filter (R · b) :=
    (Finset.ssubset_iff_of_subset hsub).2 ⟨a, by simpa using h, by simpa using irrefl a⟩
  exact Finset.card_lt_card hssub

end Count

/-- The scale of a finite lattice and of finitely many payloads with ordered joins. -/
noncomputable def Scale.ofFinite [LawfulJoin L] [Fintype L] [Fintype K] (h : OrderedJoins L K)
    (hjoin : ∀ {f g k : K}, Payload.constant? (L := L) f = none →
      Payload.constant? (L := L) g = none → Payload.join? L f g = some k →
      Payload.cacheable L k = true ∧ Payload.constant? k ≠ some (top : L)) : Scale L K where
  depth := countBefore StrictlyBelow
  maxDepth := Fintype.card L
  height := countBefore (StrictlyUnder L)
  maxHeight := Fintype.card K
  depth_lt huv hne := countBefore_lt (R := StrictlyBelow) (fun _ hself => hself.2 rfl)
    (fun _ _ _ => StrictlyBelow.trans) ⟨huv, hne⟩
  depth_le := countBefore_le _
  height_le := countBefore_le _
  join_payload hf hg hk _ := by
    have hlt : ∀ {f k : K}, Under L f k → k = f ∨
        countBefore (StrictlyUnder L) f < countBefore (StrictlyUnder L) k := fun {f k} hfk => by
      by_cases heq : k = f
      · exact .inl heq
      · exact .inr (countBefore_lt (fun _ hself => hself.2 rfl) h.strict_trans ⟨hfk, heq⟩)
    exact ⟨(hjoin hf hg hk).1, hlt (.inr ⟨_, hk⟩), hlt (h.under_right hk)⟩
  join_constant hf hg hk hc := by
    refine ⟨fun heq => (hjoin hf hg hk).2 (heq ▸ hc), ?_, ?_⟩
    · exact countBefore_lt_card (fun _ hself => hself.2 rfl) _
    · exact countBefore_lt_card (fun _ hself => hself.2 rfl) _

end Tabulation
