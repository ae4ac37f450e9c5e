import Tabulation.Proofs.EdgeStore.Meaning

/-!
# The parts of a join

A join node holds a seed and parts in ascending order, each part once. Sorting parts changes no
join, and an ascending list is determined by its members.
-/

namespace Tabulation

namespace EdgeStore

/-! ## The algebra of joins -/

section Algebra

variable {L : Type} [JoinLattice L] {Φ : EdgeRef → L → L}

theorem joinParts_append (seed : L) (ps qs : List EdgeRef) (v : L) :
    joinParts seed (ps ++ qs) Φ v = joinParts (joinParts seed ps Φ v) qs Φ v := by
  simp [joinParts]

variable [LawfulJoin L]

open LawfulJoin

theorem joinParts_seed (a b : L) (ps : List EdgeRef) (v : L) :
    joinParts (JoinLattice.join a b) ps Φ v = JoinLattice.join a (joinParts b ps Φ v) := by
  unfold joinParts
  induction ps generalizing b with
  | nil => rfl
  | cons p ps ih => rw [List.foldl_cons, join_assoc, ih, List.foldl_cons]

theorem joinParts_cons (seed : L) (p : EdgeRef) (ps : List EdgeRef) (v : L) :
    joinParts seed (p :: ps) Φ v = JoinLattice.join (Φ p v) (joinParts seed ps Φ v) := by
  rw [← joinParts_seed, join_comm]
  rfl

theorem joinParts_append_comm (seed : L) (ps qs : List EdgeRef) (v : L) :
    joinParts seed (ps ++ qs) Φ v = joinParts seed (qs ++ ps) Φ v := by
  have hjoin : ∀ (a : L) (ps : List EdgeRef),
      joinParts a ps Φ v = JoinLattice.join a (joinParts top ps Φ v) := fun a ps => by
    rw [← joinParts_seed, join_top]
  rw [joinParts_append, joinParts_append, hjoin (joinParts seed ps Φ v),
    hjoin (joinParts seed qs Φ v), hjoin seed ps, hjoin seed qs, join_assoc, join_assoc,
    join_comm (joinParts top ps Φ v)]

theorem joinParts_bottom (ps : List EdgeRef) (v : L) :
    joinParts bottom ps Φ v = bottom := by
  induction ps with
  | nil => rfl
  | cons p ps ih => rw [joinParts_cons, ih, join_bottom]

theorem joinParts_insertPart (seed : L) (p : EdgeRef) (ps : List EdgeRef) (v : L) :
    joinParts seed (insertPart p ps) Φ v = JoinLattice.join (Φ p v) (joinParts seed ps Φ v) := by
  induction ps with
  | nil => exact joinParts_cons seed p [] v
  | cons q rest ih =>
    unfold insertPart
    split
    · exact joinParts_cons ..
    · split
      · next heq =>
        subst heq
        rw [joinParts_cons, ← join_assoc, join_self]
      · rw [joinParts_cons, joinParts_cons, ih, ← join_assoc, join_comm (Φ q v), join_assoc]

/-- Sorting parts changes no join. -/
theorem joinParts_sortParts (seed : L) (ps : List EdgeRef) (v : L) :
    joinParts seed (sortParts ps) Φ v = joinParts seed ps Φ v := by
  induction ps with
  | nil => rfl
  | cons p ps ih =>
    rw [sortParts, List.foldr_cons, joinParts_insertPart, joinParts_cons]
    exact congrArg _ ih

end Algebra

/-! ## Sorted parts -/

theorem mem_insertPart {p q : EdgeRef} {ps : List EdgeRef} :
    q ∈ insertPart p ps ↔ q = p ∨ q ∈ ps := by
  induction ps with
  | nil => simp [insertPart]
  | cons r rest ih =>
    unfold insertPart
    split
    · simp
    · split
      · next heq => simp [heq]
      · simp only [List.mem_cons, ih]
        grind

theorem mem_sortParts {q : EdgeRef} {ps : List EdgeRef} : q ∈ sortParts ps ↔ q ∈ ps := by
  induction ps with
  | nil => simp [sortParts]
  | cons p ps ih => rw [sortParts, List.foldr_cons, mem_insertPart, List.mem_cons, ← ih, sortParts]

theorem ascending_insertPart {p : EdgeRef} {ps : List EdgeRef}
    (h : ps.Pairwise (·.index < ·.index)) : (insertPart p ps).Pairwise (·.index < ·.index) := by
  induction ps with
  | nil => simp [insertPart]
  | cons r rest ih =>
    rw [List.pairwise_cons] at h
    unfold insertPart
    split
    · next hlt =>
      refine List.pairwise_cons.2 ⟨fun q hq => ?_, List.pairwise_cons.2 h⟩
      rcases List.mem_cons.1 hq with rfl | hq
      · exact hlt
      · exact Nat.lt_trans hlt (h.1 q hq)
    · split
      · exact List.pairwise_cons.2 h
      · next hge hne =>
        refine List.pairwise_cons.2 ⟨fun q hq => ?_, ih h.2⟩
        rcases mem_insertPart.1 hq with rfl | hq
        · have : q.index ≠ r.index := fun he => hne (by cases q; cases r; exact congrArg _ he)
          omega
        · exact h.1 q hq

theorem ascending_sortParts (ps : List EdgeRef) : (sortParts ps).Pairwise (·.index < ·.index) := by
  induction ps with
  | nil => simp [sortParts]
  | cons p ps ih => exact ascending_insertPart ih

/-- An ascending list is determined by its members. -/
theorem ascending_ext {ps qs : List EdgeRef} (hp : ps.Pairwise (·.index < ·.index))
    (hq : qs.Pairwise (·.index < ·.index)) (h : ∀ p, p ∈ ps ↔ p ∈ qs) : ps = qs := by
  have : Std.Irrefl fun p q : EdgeRef => p.index < q.index := ⟨fun p => Nat.lt_irrefl p.index⟩
  have : Std.Antisymm fun p q : EdgeRef => p.index < q.index :=
    ⟨fun p q hpq hqp => absurd hpq (Nat.lt_asymm hqp)⟩
  exact List.Subset.antisymm_of_pairwise hp hq (fun p => (h p).1) fun p => (h p).2

theorem sortParts_eq {ps qs : List EdgeRef} (hq : qs.Pairwise (·.index < ·.index))
    (h : ∀ p, p ∈ ps ↔ p ∈ qs) : sortParts ps = qs :=
  ascending_ext (ascending_sortParts ps) hq fun p => mem_sortParts.trans (h p)

theorem nodup_of_ascending {ps : List EdgeRef} (h : ps.Pairwise (·.index < ·.index)) : ps.Nodup :=
  h.imp fun {p q} hlt (heq : p = q) => Nat.lt_irrefl _ (heq ▸ hlt)

/-- Sorting keeps each part once. -/
theorem length_sortParts (ps : List EdgeRef) : (sortParts ps).length = ps.toFinset.card := by
  rw [← List.toFinset_card_of_nodup (nodup_of_ascending (ascending_sortParts ps))]
  congr 1
  ext p
  simp [mem_sortParts]

/-- An ascending list is no longer than a list that covers it, and of its length only if it is
that list. -/
theorem length_le_of_ascending {ps qs : List EdgeRef} (hp : ps.Pairwise (·.index < ·.index))
    (hsub : ∀ p ∈ ps, p ∈ qs) : ps.length ≤ qs.length :=
  ((nodup_of_ascending hp).subperm hsub).length_le

theorem eq_of_ascending {ps qs : List EdgeRef} (hp : ps.Pairwise (·.index < ·.index))
    (hq : qs.Pairwise (·.index < ·.index)) (hsub : ∀ p ∈ ps, p ∈ qs)
    (hlen : qs.length ≤ ps.length) : ps = qs := by
  have hperm := ((nodup_of_ascending hp).subperm hsub).perm_of_length_le hlen
  exact ascending_ext hp hq fun p => hperm.mem_iff

end EdgeStore

end Tabulation
