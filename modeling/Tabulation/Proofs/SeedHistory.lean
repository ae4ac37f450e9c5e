import Tabulation.Lattice.Flat
import Tabulation.Proofs.FirstMentions
import Tabulation.Seeds

/-!
# Seeds after any additions

What seeds there are is described by the additions that were made, with no mention of groups and
positions: the nodes and the facts of each node in the order of their first mention, and the joins
of all values that were added for a fact at a node.

**Groups.** `GroupedAs s as` says that the groups are those of the additions `as`. Every addition
keeps it: the group of its node is found or opened, `groups_locate`, and the fact is found or put at
the end, `addToGroup_eq`.

**Order.** The nodes and facts that are mentioned and the joins of their values do not depend on the
order of the additions. So seeds added in another order are the same seeds in another order.
-/

namespace Tabulation

namespace Seeds

variable {D L : Type}

/-! ## Groups and their nodes -/

theorem index_eq_some {s : Seeds D L} {nodes : List String} {group : String → List (D × L)}
    (h : s.groups.toList = nodes.map fun node => (node, group node)) {node : String} {i : Nat} :
    s.index[node]? = some i ↔ nodes[i]? = some node := by
  rw [s.aligned, ← Array.getElem?_toList, h, List.getElem?_map, Option.map_map]
  simp [Function.comp_def]

/-- The group of a node is found, or an empty one is opened. -/
theorem groups_locate {s : Seeds D L} {nodes : List String} {group : String → List (D × L)}
    (h : s.groups.toList = nodes.map fun node => (node, group node)) (node : String)
    (hnew : node ∉ nodes → group node = []) :
    (s.locate node).2.groups.toList =
        (if node ∈ nodes then nodes else nodes ++ [node]).map (fun node => (node, group node)) ∧
      (s.locate node).2.index[node]? = some (s.locate node).1 := by
  unfold locate
  split
  · next i hi =>
    rw [if_pos (List.mem_of_getElem? ((index_eq_some h).1 hi))]
    exact ⟨h, hi⟩
  · next hnone =>
    have hnot : node ∉ nodes := by
      intro hmem
      obtain ⟨i, hi⟩ := List.mem_iff_getElem?.1 hmem
      rw [(index_eq_some h).2 hi] at hnone
      cases hnone
    rw [if_neg hnot, List.map_append, ← h, List.map_singleton, hnew hnot]
    exact ⟨Array.toList_push, by simp⟩

/-- Only the group at the position of the node changes. -/
theorem groups_modifyGroup {s : Seeds D L} {nodes : List String} {group : String → List (D × L)}
    (h : s.groups.toList = nodes.map fun node => (node, group node)) {node : String} {i : Nat}
    (hi : s.index[node]? = some i) (f : List (D × L) → List (D × L)) :
    (s.modifyGroup i f).groups.toList =
      nodes.map fun n => (n, if n = node then f (group n) else group n) := by
  rw [modifyGroup, Array.toList_modify, h]
  refine List.ext_getElem? fun j => ?_
  rw [List.getElem?_modify, List.getElem?_map, List.getElem?_map]
  cases hj : nodes[j]? with
  | none => simp
  | some n =>
    have hn : n = node ↔ i = j := by
      constructor
      · rintro rfl
        exact Option.some.inj (hi.symm.trans ((index_eq_some h).2 hj))
      · rintro rfl
        exact Option.some.inj (hj.symm.trans ((index_eq_some h).1 hi))
    simp only [hn, Option.map_some]
    split <;> rfl

theorem size_eq_length (s : Seeds D L) : s.size = s.toList.length := by
  rw [size, ← Array.foldl_toList, toList, List.length_flatMap, List.sum_eq_foldl, List.foldl_map]
  simp

/-! ## Additions -/

/-- A request to add a fact at a node, with a value or without. -/
inductive Addition (D L : Type) where
  | add (node : String) (fact : D) (value : L)
  | addFact (node : String) (fact : D)
  deriving DecidableEq, Repr

namespace Addition

def node : Addition D L → String
  | add node _ _ => node
  | addFact node _ => node

def fact : Addition D L → D
  | add _ fact _ => fact
  | addFact _ fact => fact

/-- What the addition asks for. -/
def key (a : Addition D L) : String × D := (a.node, a.fact)

/-- A fact without a value holds. -/
def value [JoinLattice L] : Addition D L → L
  | add _ _ value => value
  | addFact _ _ => bottom

end Addition

variable {as : List (Addition D L)} {a : Addition D L}

/-- The nodes that additions mention, in the order of their first mention. -/
def nodesOf (as : List (Addition D L)) : List String := (as.map Addition.node).eraseDups

theorem nodesOf_concat : nodesOf (as ++ [a]) =
    if a.node ∈ nodesOf as then nodesOf as else nodesOf as ++ [a.node] := by
  rw [nodesOf, List.map_append, List.map_singleton, eraseDups_concat]
  simp only [nodesOf, List.mem_eraseDups]

theorem mem_nodesOf {node : String} : node ∈ nodesOf as ↔ ∃ a ∈ as, a.node = node := by
  rw [nodesOf, List.mem_eraseDups, List.mem_map]

variable [DecidableEq D]

/-- The facts that additions mention at a node, in the order of their first mention. -/
def factsOf (as : List (Addition D L)) (node : String) : List D :=
  ((as.filter fun a => a.node = node).map Addition.fact).eraseDups

theorem factsOf_concat : factsOf (as ++ [a]) a.node =
    if a.fact ∈ factsOf as a.node then factsOf as a.node else factsOf as a.node ++ [a.fact] := by
  rw [factsOf, List.filter_append, List.filter_singleton, decide_eq_true rfl, cond_true,
    List.map_append, List.map_singleton, eraseDups_concat]
  simp only [factsOf, List.mem_eraseDups]

theorem factsOf_concat_of_ne {node : String} (h : a.node ≠ node) :
    factsOf (as ++ [a]) node = factsOf as node := by
  rw [factsOf, List.filter_append, List.filter_singleton, decide_eq_false h, cond_false,
    List.append_nil, factsOf]

theorem mem_factsOf {node : String} {fact : D} :
    fact ∈ factsOf as node ↔ (node, fact) ∈ as.map Addition.key := by
  simp [factsOf, Addition.key, and_assoc]

variable [JoinLattice L]

/-- The join of the values that additions have for a fact at a node. -/
def valueOf (as : List (Addition D L)) (node : String) (fact : D) : L :=
  joinAll ((as.filter fun a => a.key = (node, fact)).map Addition.value)

/-- The group that additions make for a node. -/
def groupOf (as : List (Addition D L)) (node : String) : List (D × L) :=
  (factsOf as node).map fun fact => (fact, valueOf as node fact)

/-- What an addition does to seeds. -/
def apply (s : Seeds D L) : Addition D L → Seeds D L
  | .add node fact value => s.add node fact value
  | .addFact node fact => s.addFact node fact

/-- The seeds that are there after additions. -/
def ofAdditions (as : List (Addition D L)) : Seeds D L := as.foldl apply empty

theorem apply_eq (s : Seeds D L) (a : Addition D L) : s.apply a = s.add a.node a.fact a.value := by
  cases a <;> rfl

theorem valueOf_concat : valueOf (as ++ [a]) a.node a.fact =
    join (valueOf as a.node a.fact) a.value := by
  rw [valueOf, List.filter_append, List.filter_singleton, decide_eq_true (by rfl), cond_true,
    List.map_append, joinAll, List.foldl_append]
  rfl

theorem valueOf_concat_of_ne {node : String} {fact : D} (h : a.key ≠ (node, fact)) :
    valueOf (as ++ [a]) node fact = valueOf as node fact := by
  rw [valueOf, List.filter_append, List.filter_singleton, decide_eq_false h, cond_false,
    List.append_nil, valueOf]

theorem valueOf_of_not_mem {node : String} {fact : D} (h : fact ∉ factsOf as node) :
    valueOf as node fact = top := by
  have hnil : as.filter (fun a => a.key = (node, fact)) = [] := by
    rw [List.filter_eq_nil_iff]
    intro b hb hkey
    exact h (mem_factsOf.2 (List.mem_map.2 ⟨b, hb, of_decide_eq_true hkey⟩))
  rw [valueOf, hnil]
  rfl

/-- A node that is not mentioned has no group. -/
theorem groupOf_of_not_mem {node : String} (h : node ∉ nodesOf as) : groupOf as node = [] := by
  have hnil : as.filter (fun a => a.node = node) = [] := by
    rw [List.filter_eq_nil_iff]
    intro b hb hnode
    exact h (mem_nodesOf.2 ⟨b, hb, of_decide_eq_true hnode⟩)
  rw [groupOf, factsOf, hnil]
  rfl

theorem groupOf_concat_of_ne {node : String} (h : a.node ≠ node) :
    groupOf (as ++ [a]) node = groupOf as node := by
  rw [groupOf, factsOf_concat_of_ne h, groupOf]
  refine List.map_congr_left fun fact _ => ?_
  rw [valueOf_concat_of_ne fun hkey => h (Prod.mk.inj hkey).1]

/-! ## Groups -/

/-- Adding to a group whose facts are distinct: `f` are the values before and `g` those after. -/
theorem addToGroup_map {fact : D} {value : L} {f g : D → L} {facts : List D}
    (hsame : ∀ d ∈ facts, d ≠ fact → g d = f d)
    (hjoin : fact ∈ facts → g fact = join (f fact) value)
    (hnew : fact ∉ facts → g fact = value) (hnodup : facts.Nodup) :
    addToGroup fact value (facts.map fun d => (d, f d)) =
      (if fact ∈ facts then facts else facts ++ [fact]).map fun d => (d, g d) := by
  induction facts with
  | nil => simp [addToGroup, hnew]
  | cons d facts ih =>
    obtain ⟨hd, hnodup⟩ := List.nodup_cons.1 hnodup
    rw [List.map_cons, addToGroup]
    split
    · next heq =>
      -- The fact is found; those after it are other facts.
      subst heq
      rw [if_pos List.mem_cons_self, List.map_cons, hjoin List.mem_cons_self]
      refine congrArg _ (List.map_congr_left fun x hx => ?_)
      rw [hsame x (List.mem_cons_of_mem _ hx) fun heq => hd (heq ▸ hx)]
    · next hne =>
      have hmem : fact ∈ d :: facts ↔ fact ∈ facts := by simp [Ne.symm hne]
      rw [ih (fun x hx => hsame x (List.mem_cons_of_mem _ hx)) (fun h => hjoin (hmem.2 h))
        (fun h => hnew (mt hmem.1 h)) hnodup]
      simp only [hmem]
      rw [← hsame d List.mem_cons_self hne]
      split <;> rfl

theorem addToGroup_eq [LawfulJoin L] (as : List (Addition D L)) (a : Addition D L) :
    addToGroup a.fact a.value (groupOf as a.node) = groupOf (as ++ [a]) a.node := by
  rw [groupOf, groupOf, factsOf_concat]
  refine addToGroup_map (fun d _ hd => ?_) (fun _ => valueOf_concat) (fun hnew => ?_)
    (nodup_eraseDups _)
  · exact valueOf_concat_of_ne fun hkey => hd (Prod.mk.inj hkey).2.symm
  · rw [valueOf_concat, valueOf_of_not_mem hnew, top_join]

/-- The groups are those of the additions. -/
def GroupedAs (s : Seeds D L) (as : List (Addition D L)) : Prop :=
  s.groups.toList = (nodesOf as).map fun node => (node, groupOf as node)

theorem GroupedAs.apply [LawfulJoin L] {s : Seeds D L} {as : List (Addition D L)}
    (h : s.GroupedAs as) (a : Addition D L) : (s.apply a).GroupedAs (as ++ [a]) := by
  obtain ⟨hgroups, hindex⟩ := groups_locate h a.node groupOf_of_not_mem
  rw [← nodesOf_concat] at hgroups
  rw [GroupedAs, apply_eq, add, groups_modifyGroup hgroups hindex]
  refine List.map_congr_left fun node _ => ?_
  split
  · next heq => rw [heq, addToGroup_eq]
  · next hne => rw [groupOf_concat_of_ne (Ne.symm hne)]

theorem groupedAs_ofAdditions [LawfulJoin L] (as : List (Addition D L)) :
    (ofAdditions as).GroupedAs as := by
  induction as using List.reverseRecOn with
  | nil => rfl
  | append_singleton as a ih =>
    rw [ofAdditions, List.foldl_append]
    exact ih.apply a

/-! ## The list of seeds -/

theorem GroupedAs.toList {s : Seeds D L} {as : List (Addition D L)} (h : s.GroupedAs as) :
    s.toList = (nodesOf as).flatMap fun node =>
      (factsOf as node).map fun fact => (node, fact, valueOf as node fact) := by
  rw [Seeds.toList, h, List.flatMap_map]
  refine List.flatMap_congr fun node _ => ?_
  dsimp only
  rw [groupOf, List.map_map]
  rfl

/-- One seed for each fact at a node that was added, with the join of its values. -/
theorem GroupedAs.mem_toList {s : Seeds D L} {as : List (Addition D L)} (h : s.GroupedAs as)
    {node : String} {fact : D} {value : L} : (node, fact, value) ∈ s.toList ↔
      (node, fact) ∈ as.map Addition.key ∧ value = valueOf as node fact := by
  simp only [h.toList, List.mem_flatMap, List.mem_map, Prod.mk.injEq]
  constructor
  · rintro ⟨node, -, fact, hfact, rfl, rfl, rfl⟩
    exact ⟨List.mem_map.1 (mem_factsOf.1 hfact), rfl⟩
  · rintro ⟨⟨a, ha, hkey⟩, rfl⟩
    exact ⟨node, mem_nodesOf.2 ⟨a, ha, congrArg Prod.fst hkey⟩, fact,
      mem_factsOf.2 (List.mem_map.2 ⟨a, ha, hkey⟩), rfl, rfl, rfl⟩

theorem GroupedAs.nodup {s : Seeds D L} {as : List (Addition D L)} (h : s.GroupedAs as) :
    (s.toList.map fun (node, fact, _) => (node, fact)).Nodup := by
  rw [h.toList, List.map_flatMap]
  refine List.nodup_flatMap.2 ⟨fun node _ => ?_, ?_⟩
  · rw [List.map_map]
    exact (nodup_eraseDups _).map fun _ _ heq => (Prod.mk.inj heq).2
  · refine (nodup_eraseDups _).imp fun {n n'} hne => ?_
    rw [Function.onFun, List.disjoint_left]
    intro key hkey hkey'
    have hfst : ∀ {n}, key ∈ ((factsOf as n).map fun fact => (n, fact, valueOf as n fact)).map
        (fun (node, fact, _) => (node, fact)) → key.1 = n := by
      intro n hmem
      simp only [List.map_map, List.mem_map] at hmem
      obtain ⟨_, -, rfl⟩ := hmem
      rfl
    exact hne ((hfst hkey).symm.trans (hfst hkey'))

theorem GroupedAs.mem_keys {s : Seeds D L} {as : List (Addition D L)} (h : s.GroupedAs as)
    {key : String × D} :
    key ∈ s.toList.map (fun (node, fact, _) => (node, fact)) ↔ key ∈ as.map Addition.key := by
  rw [List.mem_map]
  constructor
  · rintro ⟨⟨node, fact, value⟩, hmem, rfl⟩
    exact (h.mem_toList.1 hmem).1
  · exact fun hmem => ⟨(key.1, key.2, _), h.mem_toList.2 ⟨hmem, rfl⟩, rfl⟩

theorem GroupedAs.size_eq_card {s : Seeds D L} {as : List (Addition D L)} (h : s.GroupedAs as) :
    s.size = (as.map Addition.key).toFinset.card := by
  have hkeys : (as.map Addition.key).toFinset =
      (s.toList.map fun (node, fact, _) => (node, fact)).toFinset := by
    ext key
    rw [List.mem_toFinset, List.mem_toFinset, h.mem_keys]
  rw [hkeys, List.toFinset_card_of_nodup h.nodup, List.length_map, size_eq_length]

theorem valueOf_perm [LawfulJoin L] {as bs : List (Addition D L)} (h : as.Perm bs) (node : String)
    (fact : D) : valueOf as node fact = valueOf bs node fact := by
  refine ((h.filter _).map _).foldl_eq' (fun x _ y _ z => ?_) top
  rw [LawfulJoin.join_assoc, LawfulJoin.join_comm x, ← LawfulJoin.join_assoc]

/-- **Seeds are an ordered joined map.** After any additions there is one seed for each fact at a
node that was added, grouped by node, nodes and the facts of a node in the order of their first
addition, and with the join of the values added. Another order of the additions changes only the
order. -/
theorem seeds_of_additions [LawfulJoin L] (as : List (Addition D L)) :
    (ofAdditions as).toList = (nodesOf as).flatMap (fun node =>
        (factsOf as node).map fun fact => (node, fact, valueOf as node fact)) ∧
      ((ofAdditions as).toList.map fun (node, fact, _) => (node, fact)).Nodup ∧
      (∀ node fact value, (node, fact, value) ∈ (ofAdditions as).toList ↔
        (∃ a ∈ as, a.node = node ∧ a.fact = fact) ∧ value = valueOf as node fact) ∧
      (ofAdditions as).size = (as.map Addition.key).toFinset.card ∧
      ((ofAdditions as).isEmpty = true ↔ as = []) ∧
      ∀ bs, as.Perm bs → (ofAdditions as).toList.Perm (ofAdditions bs).toList := by
  have h := groupedAs_ofAdditions as
  refine ⟨h.toList, h.nodup, fun node fact value => ?_, h.size_eq_card, ?_, fun bs hperm => ?_⟩
  · simp only [h.mem_toList, List.mem_map, Addition.key, Prod.mk.injEq]
  · rw [isEmpty, beq_iff_eq, h.size_eq_card, Finset.card_eq_zero, List.toFinset_eq_empty_iff,
      List.map_eq_nil_iff]
  · have hbs := groupedAs_ofAdditions bs
    refine (List.perm_ext_iff_of_nodup h.nodup.of_map hbs.nodup.of_map).2
      fun (node, fact, value) => ?_
    rw [h.mem_toList, hbs.mem_toList, valueOf_perm hperm, (hperm.map Addition.key).mem_iff]

/-- Facts at two nodes in turn, one of them twice with different values. -/
def Interleaved.additions : List (Addition Nat (Flat Nat)) :=
  [.add "b" 0 (.value 1), .addFact "a" 0, .add "b" 1 (.value 3), .add "b" 0 (.value 9)]

theorem seeds_of_additions_interleaved :
    (ofAdditions Interleaved.additions).toList =
        [("b", 0, .bottom), ("b", 1, .value 3), ("a", 0, .bottom)] ∧
      (ofAdditions Interleaved.additions).size = 3 ∧
      (ofAdditions Interleaved.additions).toList.Perm
        (ofAdditions Interleaved.additions.reverse).toList := by
  obtain ⟨hlist, -, -, hsize, -, hperm⟩ := seeds_of_additions Interleaved.additions
  exact ⟨hlist.trans (by decide), hsize.trans (by decide), hperm _ (List.reverse_perm _).symm⟩

end Seeds

end Tabulation
