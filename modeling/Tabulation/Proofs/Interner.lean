import Mathlib
import Tabulation.Interner

/-!
# Numbers and values determine each other

`Wf` says that the index of an interner and its row of values are inverse to each other. `t ≤ t'`
says that every number given out by `t` stands for the same value in `t'`. Interning keeps the first
and moves along the second.
-/

namespace Tabulation

namespace Interner

variable {α : Type} [Ord α]

/-- The index and the row of values are inverse to each other. -/
def Wf (t : Interner α) : Prop := ∀ a i, t.index[a]? = some i ↔ t.get? i = some a

/-- Numbers keep their values. -/
instance : LE (Interner α) := ⟨fun t t' => ∀ i a, t.get? i = some a → t'.get? i = some a⟩

theorem le_refl (t : Interner α) : t ≤ t := fun _ _ h => h

theorem le_trans {t t' t'' : Interner α} (h : t ≤ t') (h' : t' ≤ t'') : t ≤ t'' :=
  fun i a hi => h' i a (h i a hi)

theorem get_eq_ok {t : Interner α} {i : UInt32} {a : α} : t.get i = .ok a ↔ t.get? i = some a := by
  unfold get get?
  cases t.values[i.toNat]? <;> simp

theorem stored_eq_ok {t : Interner α} {i : UInt32} {a : α} :
    t.stored i = .ok a ↔ t.get? i = some a := by
  unfold stored get?
  cases t.values[i.toNat]? <;> simp

theorem find?_eq_some {t : Interner α} (h : t.Wf) {a : α} {i : UInt32} :
    t.find? a = some i ↔ t.get? i = some a := h a i

theorem get?_inj {t : Interner α} (h : t.Wf) {a : α} {i j : UInt32} (hi : t.get? i = some a)
    (hj : t.get? j = some a) : i = j := by
  have hi := (h a i).2 hi
  rw [(h a j).2 hj] at hi
  exact (Option.some.inj hi).symm

/-- A value that has a number keeps it. -/
theorem intern_of_get? {t : Interner α} (h : t.Wf) {a : α} {i : UInt32} (hi : t.get? i = some a) :
    t.intern a = .ok (i, t) := by
  rw [intern, (h a i).2 hi]

theorem wf_empty [Std.TransOrd α] : (empty : Interner α).Wf := by
  intro a i
  simp [empty, get?]

/-- The row of values after a new value got the next number. -/
theorem get?_push {t : Interner α} (hsize : t.values.size + 1 < UInt32.size)
    (index : Std.TreeMap α UInt32) (a : α) (i : UInt32) :
    (⟨index, t.values.push a⟩ : Interner α).get? i =
      if i = UInt32.ofNat t.values.size then some a else t.get? i := by
  have hnat : (UInt32.ofNat t.values.size).toNat = t.values.size :=
    UInt32.toNat_ofNat_of_lt' (by omega)
  have heq : i = UInt32.ofNat t.values.size ↔ i.toNat = t.values.size := by
    rw [← UInt32.toNat_inj, hnat]
  simp only [get?, Array.getElem?_push, heq]

/-- Numbers run out only if there are that many values to be numbered. -/
theorem intern_total {t : Interner α} (h : t.Wf) {S : Finset α}
    (hS : ∀ i b, t.get? i = some b → b ∈ S) (hcard : S.card < UInt32.size) {a : α} (ha : a ∈ S) :
    ∃ i t', t.intern a = .ok (i, t') := by
  unfold intern
  split
  · exact ⟨_, _, rfl⟩
  next hnone =>
  rw [if_pos]
  · exact ⟨_, _, rfl⟩
  classical
  -- The values below the greatest number are distinct, and `a` is none of them.
  have hget : ∀ k ∈ Finset.range (min t.values.size UInt32.size),
      t.get? (UInt32.ofNat k) = some (t.values[k]?.getD a) := by
    intro k hk
    obtain ⟨hsize, hlt⟩ := lt_min_iff.1 (Finset.mem_range.1 hk)
    rw [get?, UInt32.toNat_ofNat_of_lt' hlt, Array.getElem?_eq_getElem hsize]
    rfl
  have hle : (Finset.range (min t.values.size UInt32.size)).card ≤ (S.erase a).card := by
    refine Finset.card_le_card_of_injOn (fun k => t.values[k]?.getD a) (fun k hk => ?_)
      fun k hk l hl heq => ?_
    · have hk := hget k hk
      refine Finset.mem_coe.2 (Finset.mem_erase.2 ⟨fun heq => ?_, hS _ _ hk⟩)
      rw [show t.values[k]?.getD a = a from heq, ← h a, hnone] at hk
      cases hk
    · have hk' := hget k hk
      rw [show t.values[k]?.getD a = t.values[l]?.getD a from heq] at hk'
      have heq := congrArg UInt32.toNat (get?_inj h hk' (hget l hl))
      rwa [UInt32.toNat_ofNat_of_lt' (lt_min_iff.1 (Finset.mem_range.1 hk)).2,
        UInt32.toNat_ofNat_of_lt' (lt_min_iff.1 (Finset.mem_range.1 hl)).2] at heq
  rw [Finset.card_range, Finset.card_erase_of_mem ha] at hle
  have hpos : 0 < S.card := Finset.card_pos.2 ⟨a, ha⟩
  omega

/-- Interning adds no value but the one that is asked for. -/
theorem get?_of_intern {t t' : Interner α} {a b : α} {i j : UInt32}
    (hi : t.intern a = .ok (i, t')) (hj : t'.get? j = some b) : t.get? j = some b ∨ b = a := by
  unfold intern at hi
  split at hi
  · obtain ⟨-, rfl⟩ := Prod.mk.inj (Except.ok.inj hi)
    exact .inl hj
  · split at hi
    · next hsize =>
      obtain ⟨-, rfl⟩ := Prod.mk.inj (Except.ok.inj hi)
      rw [get?_push hsize] at hj
      split at hj
      · exact .inr (Option.some.inj hj).symm
      · exact .inl hj
    · cases hi

theorem eq_of_intern_error {t : Interner α} {a : α} {f : Fault} (h : t.intern a = .error f) :
    f = .idsExhausted := by
  unfold intern at h
  split at h
  · cases h
  · split at h
    · cases h
    · exact (Except.error.inj h).symm

section Laws

variable [Std.TransOrd α] [Std.LawfulEqOrd α]

theorem intern_spec {t t' : Interner α} (h : t.Wf) {a : α} {i : UInt32}
    (hi : t.intern a = .ok (i, t')) : t'.Wf ∧ t ≤ t' ∧ t'.get? i = some a := by
  unfold intern at hi
  split at hi
  · next id hid =>
    obtain ⟨rfl, rfl⟩ := Prod.mk.inj (Except.ok.inj hi)
    exact ⟨h, le_refl _, (h a id).1 hid⟩
  · next hnone =>
    split at hi
    · next hsize =>
      obtain ⟨rfl, rfl⟩ := Prod.mk.inj (Except.ok.inj hi)
      have hfresh : t.get? (UInt32.ofNat t.values.size) = none := by
        rw [get?, UInt32.toNat_ofNat_of_lt' (by omega)]
        simp
      refine ⟨fun b j => ?_, fun j b hj => ?_, ?_⟩
      · rw [get?_push hsize, Std.TreeMap.getElem?_insert]
        by_cases hab : a = b
        · subst hab
          by_cases hj : j = UInt32.ofNat t.values.size
          · simp [hj]
          · have hne : t.get? j ≠ some a := fun hget => by
              rw [(h a j).2 hget] at hnone
              cases hnone
            simp [hj, hne, Ne.symm hj]
        · have hcmp : compare a b ≠ .eq := fun hc => hab (Std.LawfulEqOrd.eq_of_compare hc)
          by_cases hj : j = UInt32.ofNat t.values.size
          · subst hj
            simp [hcmp, hab, h b, hfresh]
          · simp [hcmp, hj, h b]
      · rw [get?_push hsize, if_neg]
        · exact hj
        · rintro rfl
          rw [hfresh] at hj
          cases hj
      · rw [get?_push hsize, if_pos rfl]
    · cases hi

end Laws

end Interner

end Tabulation
