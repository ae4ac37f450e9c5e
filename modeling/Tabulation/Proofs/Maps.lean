import Mathlib
import Std.Data.TreeMap
import Std.Data.TreeSet
import Tabulation.Canon
import Tabulation.Ident
import Tabulation.Memo

/-!
# Look-ups in ordered maps

Keys of the maps here are compared by lawful orders, so comparing as equal and being equal are the
same. These are the look-up lemmas in terms of equality, for maps and for the tables of canonical
representatives and of remembered answers that are built on them.
-/

namespace Tabulation

variable {κ β : Type} [Ord κ]

theorem values_eq_map (t : Std.TreeMap κ β) : t.values = t.toList.map (·.2) := by
  unfold Std.TreeMap.values Std.TreeMap.toList Std.DTreeMap.values Std.DTreeMap.Const.toList
  rw [Std.DTreeMap.Internal.Impl.values_eq_map_snd,
    Std.DTreeMap.Internal.Impl.Const.toList_eq_toListModel_map]
  simp

variable [Std.TransOrd κ]

theorem getD_eq (t : Std.TreeMap κ β) (k : κ) (d : β) : t.getD k d = (t[k]?).getD d :=
  Std.TreeMap.getD_eq_getD_getElem?

variable [Std.LawfulEqOrd κ]

theorem mem_values {t : Std.TreeMap κ β} {v : β} : v ∈ t.values ↔ ∃ k : κ, t[k]? = some v := by
  rw [values_eq_map]
  simp only [List.mem_map, Prod.exists, Std.TreeMap.mem_toList_iff_getElem?_eq_some,
    exists_eq_right]

theorem contains_insert_iff (t : Std.TreeSet κ) (k a : κ) :
    (t.insert k).contains a = true ↔ k = a ∨ t.contains a = true := by
  rw [Std.TreeSet.contains_insert, Bool.or_eq_true, beq_iff_eq, Std.LawfulEqOrd.compare_eq_iff_eq]

theorem getElem?_insert_eq [DecidableEq κ] (t : Std.TreeMap κ β) (k a : κ) (v : β) :
    (t.insert k v)[a]? = if k = a then some v else t[a]? := by
  rw [Std.TreeMap.getElem?_insert]
  simp only [Std.LawfulEqOrd.compare_eq_iff_eq]

/-! ## Canonical representatives -/

namespace KindedCanon

variable {κ α η : Type} [Ord κ] [Ord α] [Kinded α κ] [Std.TransOrd κ]
  [Std.TransOrd α] [Std.LawfulEqOrd α] {t : KindedCanon κ α η} {a b : α} {h : η}

theorem find?_insert_self (hk : (kind? a).isSome) : (t.insert a h).2.find? a = some h := by
  obtain ⟨k, hk⟩ := Option.isSome_iff_exists.1 hk
  simp [insert, find?, hk, ofKind, Canon.find?, Canon.insert]

theorem find?_erase_self : (t.erase a).2.find? a = none := by
  unfold erase find?
  cases ha : kind? a with
  | none => rfl
  | some k => simp [ofKind, Canon.find?, Canon.erase]

variable [Std.LawfulEqOrd κ]

theorem find?_insert_ne (hab : a ≠ b) : (t.insert a h).2.find? b = t.find? b := by
  unfold insert find?
  cases ha : kind? a with
  | none => rfl
  | some k =>
    cases hb : kind? b with
    | none => rfl
    | some k' =>
      simp only [ofKind, Std.TreeMap.getD_insert]
      split
      · next hkk =>
        obtain rfl := Std.LawfulEqOrd.eq_of_compare hkk
        simp [Canon.find?, Canon.insert, Std.TreeMap.getElem?_insert, hab]
      · rfl

theorem find?_erase_ne (hab : a ≠ b) : (t.erase a).2.find? b = t.find? b := by
  unfold erase find?
  cases ha : kind? a with
  | none => rfl
  | some k =>
    cases hb : kind? b with
    | none => rfl
    | some k' =>
      simp only [ofKind, Std.TreeMap.getD_insert]
      split
      · next hkk =>
        obtain rfl := Std.LawfulEqOrd.eq_of_compare hkk
        simp [Canon.find?, Canon.erase, Std.TreeMap.getElem?_erase, hab]
      · rfl

end KindedCanon

end Tabulation
