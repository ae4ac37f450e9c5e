import Mathlib

/-!
# Lists without repetitions, in the order of first mentions

`eraseDups` keeps the first mention of every member. A list that goes on mentions more members after
those mentioned so far, so positions among the first mentions never change.
-/

namespace Tabulation

variable {α : Type} [DecidableEq α]

theorem eraseDups_concat (l : List α) (a : α) :
    (l ++ [a]).eraseDups = if a ∈ l then l.eraseDups else l.eraseDups ++ [a] := by
  rw [List.eraseDups_append, List.cons_removeAll]
  by_cases ha : a ∈ l <;> simp [ha, List.eraseDups_cons]

theorem nodup_eraseDups (l : List α) : l.eraseDups.Nodup := by
  induction l using List.reverseRecOn with
  | nil => simp
  | append_singleton l a ih =>
    rw [eraseDups_concat]
    split
    · exact ih
    · next ha =>
      rw [← List.concat_eq_append]
      exact ih.concat (by rwa [List.mem_eraseDups])

/-- Dropping repetitions in a part first does not change the first mentions of the whole. -/
theorem eraseDups_append_eraseDups (as bs : List α) :
    (as ++ bs.eraseDups).eraseDups = (as ++ bs).eraseDups := by
  induction bs using List.reverseRecOn with
  | nil => simp
  | append_singleton bs b ih =>
    rw [← List.append_assoc, eraseDups_concat (as ++ bs), eraseDups_concat bs]
    by_cases hb : b ∈ bs
    · simp [hb, ih]
    · simp only [hb, if_false]
      rw [← List.append_assoc, eraseDups_concat, ih]
      simp [hb]

theorem length_eraseDups_le_of_subset {as bs : List α} (h : as ⊆ bs) :
    as.eraseDups.length ≤ bs.eraseDups.length := by
  refine ((nodup_eraseDups as).subperm fun a ha => ?_).length_le
  exact List.mem_eraseDups.2 (h (List.mem_eraseDups.1 ha))

/-- Positions among the first mentions do not change when the list goes on. -/
theorem idxOf_eraseDups_append {as : List α} {a : α} (ha : a ∈ as) (bs : List α) :
    (as ++ bs).eraseDups.idxOf a = as.eraseDups.idxOf a := by
  rw [List.eraseDups_append, List.idxOf_append_of_mem (List.mem_eraseDups.2 ha)]

theorem idxOf_eraseDups_lt {l : List α} {a : α} (ha : a ∈ l) :
    l.eraseDups.idxOf a < l.eraseDups.length :=
  List.idxOf_lt_length_of_mem (List.mem_eraseDups.2 ha)

end Tabulation
