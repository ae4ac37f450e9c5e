import Tabulation.Proofs.Maps

/-!
# Listings of partial functions

A list of pairs is a listing of a partial function if it has every argument of it once, with its
value. The entries of a map are listed so, and listings can be combined like the tables they come
from: keys may be written in another form, `Lists.rename`, a table may hold tables, `Lists.nest`,
and the entries with a given first half may be picked out, `Lists.fiber`.
-/

namespace Tabulation

/-- The list has the arguments of a partial function with their values, every argument once. -/
def Lists {α β : Type} (l : List (α × β)) (f : α → Option β) : Prop :=
  (l.map Prod.fst).Nodup ∧ ∀ a b, (a, b) ∈ l ↔ f a = some b

theorem lists_toList {κ β : Type} [Ord κ] [Std.TransOrd κ] [Std.LawfulEqOrd κ]
    (t : Std.TreeMap κ β) : Lists t.toList fun k => t[k]? := by
  refine ⟨?_, fun _ _ => Std.TreeMap.mem_toList_iff_getElem?_eq_some⟩
  rw [Std.TreeMap.map_fst_toList_eq_keys]
  exact Std.TreeMap.nodup_keys

namespace Lists

variable {α β γ ι ρ : Type} {l : List (α × β)} {f g : α → Option β}

theorem congr (h : Lists l f) (hfg : ∀ a, f a = g a) : Lists l g := funext hfg ▸ h

/-- Writing the arguments in another form. -/
theorem rename (h : Lists l f) (e : α ≃ γ) :
    Lists (l.map fun (a, b) => (e a, b)) fun c => f (e.symm c) := by
  refine ⟨?_, fun c b => ?_⟩
  · have hnodup := h.1.map e.injective
    rwa [List.map_map] at hnodup ⊢
  · rw [← h.2, List.mem_map]
    constructor
    · rintro ⟨⟨a, b'⟩, hmem, heq⟩
      obtain ⟨rfl, rfl⟩ := Prod.mk.inj heq
      rwa [e.symm_apply_apply]
    · exact fun hmem => ⟨(e.symm c, b), hmem, by simp⟩

/-- A table whose entries are tables, under pairs of keys. -/
theorem nest {outer : List (ι × ρ)} {row : ι → Option ρ} {inner : ρ → List (α × β)}
    {f : ρ → α → Option β} (houter : Lists outer row) (hinner : ∀ r, Lists (inner r) (f r)) :
    Lists (outer.flatMap fun (i, r) => (inner r).map fun (a, b) => ((i, a), b))
      fun (i, a) => (row i).bind fun r => f r a := by
  refine ⟨?_, fun (i, a) b => ?_⟩
  · rw [List.map_flatMap]
    refine List.nodup_flatMap.2 ⟨fun (i, r) _ => ?_, ?_⟩
    · have hnodup := (hinner r).1.map (f := (i, ·)) fun _ _ heq => (Prod.mk.inj heq).2
      rw [List.map_map] at hnodup ⊢
      exact hnodup
    · refine (List.pairwise_map.1 houter.1).imp fun {x y} hne => ?_
      rw [Function.onFun, List.disjoint_left]
      intro key hx hy
      simp only [List.map_map, List.mem_map] at hx hy
      obtain ⟨_, -, rfl⟩ := hx
      obtain ⟨_, -, heq⟩ := hy
      exact hne (Prod.mk.inj heq).1.symm
  · simp only [List.mem_flatMap, List.mem_map, Prod.exists, Prod.mk.injEq, houter.2,
      Option.bind_eq_some_iff]
    constructor
    · rintro ⟨i, r, hr, a, b, hmem, ⟨rfl, rfl⟩, rfl⟩
      exact ⟨r, hr, ((hinner r).2 a b).1 hmem⟩
    · rintro ⟨r, hr, hb⟩
      exact ⟨i, r, hr, a, b, ((hinner r).2 a b).2 hb, ⟨rfl, rfl⟩, rfl⟩

/-- The entries whose key has a given first half. -/
theorem fiber [DecidableEq ι] {l : List ((ι × α) × β)} {f : ι × α → Option β} (h : Lists l f)
    (i : ι) : Lists (l.filterMap fun ((j, a), b) => if j = i then some (a, b) else none)
      fun a => f (i, a) := by
  have hmem : ∀ a b, (a, b) ∈ l.filterMap (fun ((j, a), b) => if j = i then some (a, b) else none) ↔
      ((i, a), b) ∈ l := by
    intro a b
    simp only [List.mem_filterMap, Prod.exists, Option.ite_none_right_eq_some, Option.some.injEq,
      Prod.mk.injEq]
    constructor
    · rintro ⟨_, _, _, hmem, rfl, rfl, rfl⟩
      exact hmem
    · exact fun hmem => ⟨i, a, b, hmem, rfl, rfl, rfl⟩
  refine ⟨?_, fun a b => (hmem a b).trans (h.2 (i, a) b)⟩
  rw [List.map_filterMap]
  have hnodup := h.1
  rw [List.Nodup, List.pairwise_map] at hnodup
  refine List.Pairwise.filterMap _ (fun x y hne a ha b hb heq => hne ?_) hnodup
  obtain ⟨⟨j, c⟩, d⟩ := x
  obtain ⟨⟨k, c'⟩, d'⟩ := y
  simp only [Option.map_eq_some_iff, Option.ite_none_right_eq_some, Option.some.injEq] at ha hb
  obtain ⟨_, ⟨rfl, rfl⟩, rfl⟩ := ha
  obtain ⟨_, ⟨rfl, rfl⟩, rfl⟩ := hb
  exact congrArg (Prod.mk k) heq

/-- There are as many entries as arguments. -/
theorem length_eq (h : Lists l f) : l.length = {a | (f a).isSome}.ncard := by
  classical
  have hset : {a | (f a).isSome} = ((l.map Prod.fst).toFinset : Set α) := by
    ext a
    simp only [Set.mem_ofPred_eq, List.coe_toFinset, List.mem_map, Prod.exists, exists_and_right,
      exists_eq_right, h.2, Option.isSome_iff_exists]
  rw [hset, Set.ncard_coe_finset, List.toFinset_card_of_nodup h.1, List.length_map]

end Lists

end Tabulation
