import Tabulation.EdgeFunction.NumberMap
import Tabulation.Proofs.EdgeStore.Denotation
import Tabulation.Proofs.EdgeStore.Level

/-!
# Joins of handles form a semilattice

If the client joins no payloads, the handle of a join depends only on what is joined, not on the
order, the grouping or the number of times.

**Contents.** A handle stands for a *content*: the join of its constants, which is the seed, and the
set of its other parts. All-bottom has none. A join adds the contents of its operands and then
*reduces* the sum: a sum whose seed is bottom, or with more parts than the limit allows, is widened
and has no content.

**Why the laws hold.** Addition of contents is a semilattice, and what a sum lost by widening stays
lost when more is added, so reduction does not disturb associativity. In a regular store equal
contents have one handle, so the laws carry over to handles.

Main result: `join_laws`.
-/

namespace Tabulation

variable {L K : Type} [JoinLattice L]

/-! ## Contents -/

/-- The constants of a stored function, joined, and its other parts. -/
@[ext]
structure Content (L : Type) where
  seed : L
  parts : Finset EdgeRef

namespace Content

/-- The content of all-top. -/
def empty : Content L := ⟨top, ∅⟩

/-- What two functions hold together. -/
def add (x y : Content L) : Content L := ⟨JoinLattice.join x.seed y.seed, x.parts ∪ y.parts⟩

/-- The content of all-top or of a single part. -/
def Small (x : Content L) : Prop := x.seed = top ∧ x.parts.card ≤ 1

/-- A content that is kept: it is small, or neither bottom nor too large. -/
def Fits (limit : Nat) (x : Content L) : Prop :=
  x.Small ∨ x.seed ≠ bottom ∧ x.parts.card ≤ limit

variable {limit : Nat} {x y : Content L}

section Add

variable [LawfulJoin L]

theorem add_comm (x y : Content L) : x.add y = y.add x :=
  Content.ext (LawfulJoin.join_comm _ _) (Finset.union_comm _ _)

theorem add_assoc (x y z : Content L) : (x.add y).add z = x.add (y.add z) :=
  Content.ext (LawfulJoin.join_assoc _ _ _) (Finset.union_assoc _ _ _)

theorem add_self (x : Content L) : x.add x = x :=
  Content.ext (LawfulJoin.join_self _) (Finset.union_self _)

theorem empty_add (x : Content L) : empty.add x = x :=
  Content.ext (top_join _) (Finset.empty_union _)

/-- What is widened is widened also when more is added. -/
theorem Fits.of_add (h : (x.add y).Fits limit) : x.Fits limit := by
  have hcard : x.parts.card ≤ (x.add y).parts.card :=
    Finset.card_le_card Finset.subset_union_left
  have hbelow : Below x.seed (x.add y).seed := below_join_left _ _
  rcases h with ⟨htop, hsingle⟩ | ⟨hbot, hlimit⟩
  · left
    rw [htop] at hbelow
    exact ⟨hbelow.antisymm (top_below _), Nat.le_trans hcard hsingle⟩
  · right
    refine ⟨fun hx => hbot ?_, Nat.le_trans hcard hlimit⟩
    rw [hx] at hbelow
    exact (below_bottom _).antisymm hbelow

end Add

variable [DecidableEq L]

instance (x : Content L) : Decidable x.Small :=
  inferInstanceAs (Decidable (x.seed = top ∧ x.parts.card ≤ 1))

instance (limit : Nat) (x : Content L) : Decidable (x.Fits limit) :=
  inferInstanceAs (Decidable (x.Small ∨ x.seed ≠ bottom ∧ x.parts.card ≤ limit))

/-- The content, unless it is widened. -/
def reduce (limit : Nat) (x : Content L) : Option (Content L) :=
  if x.Fits limit then some x else none

/-- The content of a join. -/
def combine (limit : Nat) : Option (Content L) → Option (Content L) → Option (Content L)
  | some x, some y => (x.add y).reduce limit
  | _, _ => none

theorem Fits.reduce (h : x.Fits limit) : x.reduce limit = some x := if_pos h

theorem combine_none (x : Option (Content L)) : combine limit x none = none := by
  cases x <;> rfl

theorem none_combine (x : Option (Content L)) : combine limit none x = none := rfl

variable [LawfulJoin L]

theorem combine_comm (x y : Option (Content L)) : combine limit x y = combine limit y x := by
  cases x with
  | none => rw [combine_none, none_combine]
  | some x =>
    cases y with
    | none => rw [combine_none, none_combine]
    | some y => exact congrArg (Content.reduce limit) (add_comm x y)

/-- Reducing on the way makes no difference. -/
theorem combine_reduce (x y : Content L) :
    combine limit (x.reduce limit) (some y) = (x.add y).reduce limit := by
  by_cases hx : x.Fits limit
  · rw [hx.reduce]
    rfl
  · have hxy : ¬ (x.add y).Fits limit := fun h => hx h.of_add
    rw [reduce, if_neg hx, reduce, if_neg hxy]
    rfl

theorem combine_assoc (x y z : Option (Content L)) :
    combine limit (combine limit x y) z = combine limit x (combine limit y z) := by
  cases x with
  | none => rfl
  | some x =>
    cases y with
    | none => rfl
    | some y =>
      cases z with
      | none => rw [combine_none, combine_none, combine_none]
      | some z =>
        calc combine limit ((x.add y).reduce limit) (some z)
            = ((x.add y).add z).reduce limit := combine_reduce _ _
          _ = ((y.add z).add x).reduce limit := by rw [add_assoc, add_comm]
          _ = combine limit ((y.add z).reduce limit) (some x) := (combine_reduce _ _).symm
          _ = combine limit (some x) ((y.add z).reduce limit) := combine_comm _ _

theorem combine_self {x : Option (Content L)} (h : ∀ y ∈ x, y.Fits limit) :
    combine limit x x = x := by
  cases x with
  | none => rfl
  | some x =>
    show (x.add x).reduce limit = some x
    rw [add_self, (h x rfl).reduce]

theorem empty_combine {x : Option (Content L)} (h : ∀ y ∈ x, y.Fits limit) :
    combine limit (some empty) x = x := by
  cases x with
  | none => rfl
  | some x =>
    show (empty.add x).reduce limit = some x
    rw [empty_add, (h x rfl).reduce]

/-- The node that holds a content that is not small. -/
noncomputable def node (x : Content L) : EdgeNode L K :=
  if x.parts = ∅ then .constant x.seed
  else .join x.seed (EdgeStore.sortParts x.parts.toList)

end Content

/-- What the node of a handle contributes to a join. -/
def EdgeNode.content (ef : EdgeRef) : EdgeNode L K → Option (Content L)
  | .allTop => some .empty
  | .allBottom => none
  | .constant c => some ⟨c, ∅⟩
  | .join seed parts => some ⟨seed, parts.toFinset⟩
  | .identity | .custom _ | .compose .. => some ⟨top, {ef}⟩

theorem EdgeNode.IsPart.content_eq [Payload K L] {node : EdgeNode L K} (h : node.IsPart)
    (ef : EdgeRef) : node.content ef = some ⟨top, {ef}⟩ := by
  cases node with
  | allTop => exact absurd h.constant nofun
  | allBottom => exact absurd h.constant nofun
  | constant c => exact absurd h.constant nofun
  | join seed parts => exact absurd rfl (h.join seed parts)
  | _ => rfl

namespace EdgeStore

theorem addSeed_eq_join [LawfulJoin L] (v : L) (node : EdgeNode L K) :
    addSeed v node = JoinLattice.join v (addSeed top node) := by
  cases node with
  | constant c => rw [addSeed, addSeed, top_join]
  | join seed parts => rw [addSeed, addSeed, top_join]
  | _ => exact (LawfulJoin.join_top v).symm

/-- A join node holds more than a single part. -/
theorem NormalJoin.not_small {limit : Nat} {seed : L} {parts : List EdgeRef}
    (h : NormalJoin limit seed parts) :
    ¬ (⟨seed, parts.toFinset⟩ : Content L).Small := by
  rintro ⟨htop, hcard⟩
  have hpos := List.length_pos_iff.2 h.nonempty
  have hcard' : parts.toFinset.card = parts.length :=
    List.toFinset_card_of_nodup (nodup_of_ascending h.ascending)
  exact h.single (by simp only at hcard; omega) htop

variable [Ord L] [Ord K]

/-- The content of a live handle. -/
def content (s : EdgeStore L K) (ef : EdgeRef) : Option (Content L) :=
  (s.node? ef).bind (EdgeNode.content ef)

variable {s s' : EdgeStore L K} {a b c ef : EdgeRef} {node : EdgeNode L K}

theorem content_eq (hn : s.node? ef = some node) : s.content ef = node.content ef := by
  rw [content, hn]
  rfl

theorem content_mono (ha : s.Alive ef) (hle : s ≤ s') : s'.content ef = s.content ef := by
  obtain ⟨node, hn⟩ := ha
  rw [content_eq hn, content_eq (hle.1 _ _ hn)]

/-- What an operand other than the bounds contributes is its content. -/
theorem content_eq_parts [LawfulJoin L] (hn : s.node? ef = some node) (htop : node ≠ .allTop)
    (hbot : node ≠ .allBottom) :
    s.content ef = some ⟨addSeed top node, (partsOf ef node).toFinset⟩ := by
  rw [content_eq hn]
  cases node with
  | allTop => exact absurd rfl htop
  | allBottom => exact absurd rfl hbot
  | constant v => simp [EdgeNode.content, addSeed, partsOf, top_join]
  | join seed parts => simp [EdgeNode.content, addSeed, partsOf, top_join]
  | _ => simp [EdgeNode.content, addSeed, partsOf]

/-! ## Expressions -/

/-- An expression of joins of handles. -/
inductive JoinTree where
  | handle (ef : EdgeRef)
  | join (left right : JoinTree)

namespace JoinTree

/-- The handles in an expression. -/
def handles : JoinTree → List EdgeRef
  | .handle ef => [ef]
  | .join left right => left.handles ++ right.handles

variable [DecidableEq L]

/-- The content of an expression. -/
def content (s : EdgeStore L K) : JoinTree → Option (Content L)
  | .handle ef => s.content ef
  | .join left right => Content.combine s.joinLimit (left.content s) (right.content s)

theorem content_mono {t : JoinTree} (halive : ∀ ef ∈ t.handles, s.Alive ef) (hle : s ≤ s') :
    t.content s' = t.content s := by
  induction t with
  | handle ef => exact EdgeStore.content_mono (halive ef List.mem_cons_self) hle
  | join left right ihl ihr =>
    have hl : ∀ ef ∈ left.handles, s.Alive ef := fun ef hef =>
      halive ef (List.mem_append_left _ hef)
    have hr : ∀ ef ∈ right.handles, s.Alive ef := fun ef hef =>
      halive ef (List.mem_append_right _ hef)
    rw [content, content, ihl hl, ihr hr, hle.2.1]

end JoinTree

/-! ## Regular stores -/

variable [DecidableEq L] [Payload K L]

/-- Stored functions are reduced. -/
theorem Regular.content_fits (h : Regular s) (ef : EdgeRef) :
    ∀ x ∈ s.content ef, x.Fits s.joinLimit := by
  intro x hx
  cases hn : s.node? ef with
  | none => simp [content, hn] at hx
  | some node =>
    rw [content_eq hn] at hx
    cases node with
    | allTop =>
      obtain rfl := Option.some.inj hx
      exact .inl ⟨rfl, by simp [Content.empty]⟩
    | allBottom => cases hx
    | constant v =>
      obtain rfl := Option.some.inj hx
      exact .inr ⟨(h.normal_constant hn).2, by simp⟩
    | join seed parts =>
      obtain rfl := Option.some.inj hx
      obtain ⟨hjoin, -⟩ := h.normal_join hn
      exact .inr ⟨hjoin.seed_ne, Nat.le_trans (List.toFinset_card_le parts) hjoin.short⟩
    | _ =>
      obtain rfl := Option.some.inj hx
      exact .inl ⟨rfl, by simp⟩

/-! ## One handle for each content -/

theorem Regular.eq_allBottom_of_content (h : Regular s) (ha : s.Alive ef)
    (hnone : s.content ef = none) : ef = .allBottom := by
  obtain ⟨node, hn⟩ := ha
  rw [content_eq hn] at hnone
  cases node with
  | allBottom => exact h.eq_allBottom hn
  | _ => cases hnone

/-- Small contents belong to all-top and to parts. -/
theorem Regular.parts_of_small (h : Regular s) {x : Content L} (hx : s.content ef = some x)
    (hsmall : x.Small) : x.parts = if ef = .allTop then ∅ else {ef} := by
  cases hn : s.node? ef with
  | none => simp [content, hn] at hx
  | some node =>
    rw [content_eq hn] at hx
    by_cases htop : node = .allTop
    · subst htop
      obtain rfl := Option.some.inj hx
      rw [if_pos (h.eq_allTop hn)]
      rfl
    have hef : ef ≠ .allTop := by
      rintro rfl
      exact htop (Option.some.inj (hn.symm.trans h.allTop))
    rw [if_neg hef]
    cases node with
    | allTop => exact absurd rfl htop
    | allBottom => cases hx
    | constant v =>
      obtain rfl := Option.some.inj hx
      exact absurd hsmall.1 (h.normal_constant hn).1
    | join seed parts =>
      obtain rfl := Option.some.inj hx
      exact absurd hsmall (h.normal_join hn).1.not_small
    | _ =>
      obtain rfl := Option.some.inj hx
      rfl

/-- All other contents determine the node of the handle. -/
theorem Regular.node_of_content (h : Regular s) {x : Content L} (hx : s.content ef = some x)
    (hlarge : ¬ x.Small) : s.node? ef = some x.node := by
  cases hn : s.node? ef with
  | none => simp [content, hn] at hx
  | some node =>
    rw [content_eq hn] at hx
    cases node with
    | allTop =>
      obtain rfl := Option.some.inj hx
      exact absurd ⟨rfl, by simp [Content.empty]⟩ hlarge
    | allBottom => cases hx
    | constant v =>
      obtain rfl := Option.some.inj hx
      rfl
    | join seed parts =>
      obtain rfl := Option.some.inj hx
      obtain ⟨hjoin, -⟩ := h.normal_join hn
      have hne : parts.toFinset ≠ ∅ := fun hempty =>
        hjoin.nonempty ((List.toFinset_eq_empty_iff parts).1 hempty)
      have hsort : sortParts parts.toFinset.toList = parts :=
        ascending_ext (ascending_sortParts _) hjoin.ascending fun p => by simp [mem_sortParts]
      rw [Content.node, if_neg hne, hsort]
    | _ =>
      obtain rfl := Option.some.inj hx
      exact absurd ⟨rfl, by simp⟩ hlarge

/-- Live handles of one content are one handle. -/
theorem Regular.content_inj (h : Regular s) (ha : s.Alive a) (hb : s.Alive b)
    (heq : s.content a = s.content b) : a = b := by
  cases hx : s.content a with
  | none => rw [h.eq_allBottom_of_content ha hx, h.eq_allBottom_of_content hb (heq ▸ hx)]
  | some x =>
    by_cases hsmall : x.Small
    · have hparts := (h.parts_of_small hx hsmall).symm.trans (h.parts_of_small (heq ▸ hx) hsmall)
      split_ifs at hparts with hat hbt hbt
      · exact hat.trans hbt.symm
      · exact absurd hparts.symm (Finset.singleton_ne_empty b)
      · exact absurd hparts (Finset.singleton_ne_empty a)
      · exact Finset.singleton_injective hparts
    · have hkind : (kind? (x.node : EdgeNode L K)).isSome := by
        unfold Content.node
        split_ifs <;> rfl
      exact h.unique hkind (h.node_of_content hx hsmall) (h.node_of_content (heq ▸ hx) hsmall)

/-! ## Contents of joins -/

/-- Over a lattice whose bounds meet, only all-bottom and all-top are constant. -/
theorem Regular.isPart_of_trivial [LawfulJoin L] (h : Regular s) (hn : s.node? ef = some node)
    (htop : ef ≠ .allTop) (hbot : ef ≠ .allBottom) (htrivial : (top : L) = bottom) :
    node.IsPart := by
  have hall : ∀ v : L, v = bottom := fun v => by
    rw [← LawfulJoin.join_top v, htrivial, LawfulJoin.join_bottom]
  cases node with
  | allTop => exact absurd (h.eq_allTop hn) htop
  | allBottom => exact absurd (h.eq_allBottom hn) hbot
  | constant v => exact absurd (hall v) (h.normal_constant hn).2
  | join seed parts => exact absurd (hall seed) (h.normal_join hn).1.seed_ne
  | _ => exact ⟨rfl, nofun⟩

/-- The join of a seed and of parts has them as its content, unless it is widened. -/
theorem Made.content (h : Regular s) {seed : L} {parts : List EdgeRef}
    (hasc : parts.Pairwise (·.index < ·.index))
    (hparts : ∀ p ∈ parts, ∃ node, s.node? p = some node ∧ node.IsPart)
    (htrivial : (top : L) = bottom → 1 < parts.length) (hc : Made s seed parts c) :
    s.content c = (⟨seed, parts.toFinset⟩ : Content L).reduce s.joinLimit := by
  have hcard : parts.toFinset.card = parts.length :=
    List.toFinset_card_of_nodup (nodup_of_ascending hasc)
  have hbottom : s.content .allBottom = none := content_eq h.allBottom
  unfold Made at hc
  by_cases hbot : seed = bottom
  · have hfits : ¬ (⟨seed, parts.toFinset⟩ : Content L).Fits s.joinLimit := by
      rintro (⟨htop, hsingle⟩ | ⟨hne, -⟩)
      · have := htrivial (htop.symm.trans hbot)
        simp only [hcard] at hsingle
        omega
      · exact hne hbot
    rw [if_pos (by simpa [isBottom] using hbot)] at hc
    rw [hc, hbottom, Content.reduce, if_neg hfits]
  rw [if_neg (by simpa [isBottom] using hbot)] at hc
  cases parts with
  | nil =>
    have hfits : (⟨seed, ∅⟩ : Content L).Fits s.joinLimit := .inr ⟨hbot, Nat.zero_le _⟩
    show s.content c = (⟨seed, ∅⟩ : Content L).reduce s.joinLimit
    rw [hfits.reduce]
    cases hc with
    | top htop => rw [content_eq h.allTop, htop]; rfl
    | bottom _ hbot' => exact absurd hbot' hbot
    | node _ _ hn => rw [content_eq hn]; rfl
  | cons p rest =>
    simp only at hc
    by_cases hsingle : (rest.isEmpty && isTop seed) = true
    · rw [if_pos hsingle] at hc
      obtain ⟨hrest, htop⟩ := Bool.and_eq_true_iff.1 hsingle
      obtain rfl := List.isEmpty_iff.1 hrest
      obtain rfl : seed = top := by simpa [isTop] using htop
      have hfits : (⟨top, [p].toFinset⟩ : Content L).Fits s.joinLimit := .inl ⟨rfl, by simp⟩
      obtain ⟨node, hn, hpart⟩ := hparts p List.mem_cons_self
      rw [hfits.reduce, hc, content_eq hn, hpart.content_eq]
      rfl
    rw [if_neg hsingle] at hc
    by_cases hlimit : s.joinLimit < (p :: rest).length
    · rw [if_pos hlimit] at hc
      have hfits : ¬ (⟨seed, (p :: rest).toFinset⟩ : Content L).Fits s.joinLimit := by
        rintro (⟨htop, hone⟩ | ⟨-, hle⟩)
        · refine hsingle (Bool.and_eq_true_iff.2 ⟨?_, by simpa [isTop] using htop⟩)
          simp only [hcard, List.length_cons] at hone
          exact List.isEmpty_iff.2 (List.eq_nil_of_length_eq_zero (by omega))
        · simp only [hcard] at hle
          omega
      rw [hc, hbottom, Content.reduce, if_neg hfits]
    · rw [if_neg hlimit] at hc
      have hfits : (⟨seed, (p :: rest).toFinset⟩ : Content L).Fits s.joinLimit :=
        .inr ⟨hbot, by simp only [hcard]; omega⟩
      rw [hfits.reduce, content_eq hc]
      rfl

/-- The stores that operations other than sweeps lead to. -/
inductive Extended (s : EdgeStore L K) : EdgeStore L K → Prop
  | refl : Extended s s
  | step {t t' : EdgeStore L K} {op : Op L K} : Extended s t → op.isSweep = false →
      (∀ ef ∈ op.handles, t.Alive ef) → op.perform t = .ok t' → Extended s t'

theorem Extended.regular [Std.TransOrd L] [Std.LawfulEqOrd L] [Std.TransOrd K]
    [Std.LawfulEqOrd K] {t : EdgeStore L K} (hext : Extended s t) (h : Regular s) :
    Regular t ∧ s ≤ t := by
  induction hext with
  | refl => exact ⟨h, le_refl s⟩
  | step _ hsweep halive hperform ih =>
    obtain ⟨ht, hle⟩ := ih
    obtain ⟨t', ht', h', -, hle'⟩ := ht.perform halive
    obtain rfl := Except.ok.inj (ht'.symm.trans hperform)
    exact ⟨h', le_trans hle (hle' hsweep)⟩

variable [LawfulJoin L]

/-- If the client joins no payloads, the content of a join is made of those of its operands. -/
theorem Joined.content (h : Regular s) (hnone : ∀ f g : K, Payload.join? L f g = none)
    (hc : Joined s a b c) :
    s.content c = Content.combine s.joinLimit (s.content a) (s.content b) := by
  have hfits := h.content_fits
  have htop : s.content .allTop = some .empty := content_eq h.allTop
  have hbottom : s.content .allBottom = none := content_eq h.allBottom
  unfold Joined at hc
  by_cases hab : a = b
  · rw [if_pos hab] at hc
    rw [hc, ← hab, Content.combine_self (hfits a)]
  rw [if_neg hab] at hc
  by_cases hat : a = .allTop
  · rw [if_pos hat] at hc
    rw [hc, hat, htop, Content.empty_combine (hfits b)]
  rw [if_neg hat] at hc
  by_cases hbt : b = .allTop
  · rw [if_pos hbt] at hc
    rw [hc, hbt, htop, Content.combine_comm, Content.empty_combine (hfits a)]
  rw [if_neg hbt] at hc
  by_cases hbot : a = .allBottom ∨ b = .allBottom
  · rw [if_pos hbot] at hc
    rw [hc, hbottom]
    rcases hbot with rfl | rfl
    · rw [hbottom, Content.none_combine]
    · rw [hbottom, Content.combine_none]
  rw [if_neg hbot] at hc
  obtain ⟨hab', hbb⟩ := not_or.1 hbot
  obtain ⟨f, g, hf, hg, hc⟩ := hc
  have hfold : foldJoin f g = none := by
    cases f <;> cases g <;> first | rfl | exact hnone _ _
  simp only [hfold] at hc
  have hmade := hc.content h (ascending_sortParts _)
    (fun p hp => by
      rcases List.mem_append.1 (mem_sortParts.1 hp) with hp | hp
      · exact (partsOf_isPart h hf hat hab' hp).2.2
      · exact (partsOf_isPart h hg hbt hbb hp).2.2)
    (fun htrivial => by
      -- Two different parts meet.
      rw [length_sortParts, partsOf_of_isPart (h.isPart_of_trivial hf hat hab' htrivial),
        partsOf_of_isPart (h.isPart_of_trivial hg hbt hbb htrivial)]
      simp [Finset.card_pair hab])
  have hfne : f ≠ .allTop ∧ f ≠ .allBottom :=
    ⟨fun he => hat (h.eq_allTop (he ▸ hf)), fun he => hab' (h.eq_allBottom (he ▸ hf))⟩
  have hgne : g ≠ .allTop ∧ g ≠ .allBottom :=
    ⟨fun he => hbt (h.eq_allTop (he ▸ hg)), fun he => hbb (h.eq_allBottom (he ▸ hg))⟩
  have hparts : (sortParts (partsOf a f ++ partsOf b g)).toFinset =
      (partsOf a f).toFinset ∪ (partsOf b g).toFinset := by
    ext p
    simp [mem_sortParts]
  rw [hmade, content_eq_parts hf hfne.1 hfne.2, content_eq_parts hg hgne.1 hgne.2, hparts,
    addSeed_eq_join]
  rfl

variable [Std.TransOrd L] [Std.LawfulEqOrd L] [Std.TransOrd K] [Std.LawfulEqOrd K]

theorem Regular.join_content (h : Regular s) (hnone : ∀ f g : K, Payload.join? L f g = none)
    (ha : s.Alive a) (hb : s.Alive b) :
    ∃ c s', s.join a b = .ok (c, s') ∧ Regular s' ∧ s ≤ s' ∧ s'.Alive c ∧
      s'.content c = Content.combine s.joinLimit (s.content a) (s.content b) := by
  obtain ⟨c, s', hc, h', hle, hjoined⟩ := h.join ha hb
  obtain ⟨halive, halive'⟩ := (ha.mono hle).joinKey (hb.mono hle)
  refine ⟨c, s', hc, h', hle, hjoined.alive h' halive halive', ?_⟩
  rw [hjoined.content h' hnone, hle.2.1, ← content_mono ha hle, ← content_mono hb hle]
  unfold joinKey
  split_ifs
  · rfl
  · exact Content.combine_comm _ _

/-! ## Successive joins -/

namespace JoinTree

/-- The handle of an expression, with its joins performed one after another. -/
def eval : JoinTree → EdgeStore L K → Except Fault (EdgeRef × EdgeStore L K)
  | .handle ef, s => .ok (ef, s)
  | .join left right, s => do
    let (a, s) ← left.eval s
    let (b, s) ← right.eval s
    s.join a b

/-- Joins of live handles return a handle with the content of the expression. -/
theorem eval_content {t : JoinTree} (h : Regular s)
    (hnone : ∀ f g : K, Payload.join? L f g = none) (halive : ∀ ef ∈ t.handles, s.Alive ef) :
    ∃ x s', t.eval s = .ok (x, s') ∧ Regular s' ∧ s ≤ s' ∧ s'.Alive x ∧
      s'.content x = t.content s := by
  induction t generalizing s with
  | handle ef => exact ⟨ef, s, rfl, h, le_refl s, halive ef List.mem_cons_self, rfl⟩
  | join left right ihl ihr =>
    have hl : ∀ ef ∈ left.handles, s.Alive ef := fun ef hef =>
      halive ef (List.mem_append_left _ hef)
    have hr : ∀ ef ∈ right.handles, s.Alive ef := fun ef hef =>
      halive ef (List.mem_append_right _ hef)
    obtain ⟨a, s₁, ha, h₁, hle₁, halive₁, hca⟩ := ihl h hl
    obtain ⟨b, s₂, hb, h₂, hle₂, halive₂, hcb⟩ := ihr h₁ fun ef hef => (hr ef hef).mono hle₁
    obtain ⟨c, s₃, hc, h₃, hle₃, halive₃, hcc⟩ :=
      h₂.join_content hnone (halive₁.mono hle₂) halive₂
    refine ⟨c, s₃, ?_, h₃, le_trans (le_trans hle₁ hle₂) hle₃, halive₃, ?_⟩
    · simp only [eval, bind_eq_ok]
      exact ⟨_, ha, _, hb, hc⟩
    · rw [hcc, hcb, EdgeStore.content_mono halive₁ hle₂, hca, content_mono hr hle₁,
        (le_trans hle₁ hle₂).2.1]
      rfl

end JoinTree

/-- The second expression has the handle of the first, if it is evaluated after it and nothing is
swept in between. -/
def SameAfter (s : EdgeStore L K) (t u : JoinTree) : Prop :=
  ∃ x s₁, t.eval s = .ok (x, s₁) ∧ ∀ s₂, Extended s₁ s₂ → ∃ s₃, u.eval s₂ = .ok (x, s₃)

/-- The two expressions have one handle, whichever of them is evaluated first. -/
def SameHandle (s : EdgeStore L K) (t u : JoinTree) : Prop := SameAfter s t u ∧ SameAfter s u t

theorem sameAfter_of_content {t u : JoinTree} (h : Regular s)
    (hnone : ∀ f g : K, Payload.join? L f g = none) (ht : ∀ ef ∈ t.handles, s.Alive ef)
    (hu : ∀ ef ∈ u.handles, s.Alive ef) (heq : t.content s = u.content s) : SameAfter s t u := by
  obtain ⟨x, s₁, hx, h₁, hle₁, halive₁, hcx⟩ := JoinTree.eval_content h hnone ht
  refine ⟨x, s₁, hx, fun s₂ hext => ?_⟩
  obtain ⟨h₂, hle₂⟩ := hext.regular h₁
  have hle := le_trans hle₁ hle₂
  obtain ⟨y, s₃, hy, h₃, hle₃, halive₃, hcy⟩ :=
    JoinTree.eval_content h₂ hnone fun ef hef => (hu ef hef).mono hle
  have hxy : s₃.content x = s₃.content y := by
    rw [hcy, JoinTree.content_mono hu hle, ← heq, ← hcx]
    exact content_mono halive₁ (le_trans hle₂ hle₃)
  obtain rfl := h₃.content_inj (halive₁.mono (le_trans hle₂ hle₃)) halive₃ hxy
  exact ⟨s₃, hy⟩

theorem sameHandle_of_content {t u : JoinTree} (h : Regular s)
    (hnone : ∀ f g : K, Payload.join? L f g = none) (ht : ∀ ef ∈ t.handles, s.Alive ef)
    (hu : ∀ ef ∈ u.handles, s.Alive ef) (heq : t.content s = u.content s) : SameHandle s t u :=
  ⟨sameAfter_of_content h hnone ht hu heq, sameAfter_of_content h hnone hu ht heq.symm⟩

/-- If the client joins no payloads, joins of live handles are commutative, idempotent and
associative and absorb their operands, all-top is neutral and all-bottom absorbs everything. -/
theorem join_laws (limit : Nat) (ops : List (Op L K)) (s : EdgeStore L K)
    (hs : build limit ops = .ok s) (hnone : ∀ f g : K, Payload.join? L f g = none)
    (a b c : EdgeRef) (ha : s.Alive a) (hb : s.Alive b) (hc : s.Alive c) :
    SameHandle s (.join (.handle a) (.handle b)) (.join (.handle b) (.handle a)) ∧
    SameHandle s (.join (.handle a) (.handle a)) (.handle a) ∧
    SameHandle s (.join (.join (.handle a) (.handle b)) (.handle c))
      (.join (.handle a) (.join (.handle b) (.handle c))) ∧
    SameHandle s (.join (.join (.handle a) (.handle b)) (.handle a))
      (.join (.handle a) (.handle b)) ∧
    SameHandle s (.join (.handle .allTop) (.handle a)) (.handle a) ∧
    SameHandle s (.join (.handle a) (.handle .allTop)) (.handle a) ∧
    SameHandle s (.join (.handle .allBottom) (.handle a)) (.handle .allBottom) ∧
    SameHandle s (.join (.handle a) (.handle .allBottom)) (.handle .allBottom) := by
  obtain ⟨h, -⟩ := regular_of_build hs
  have hfits := h.content_fits
  have htop : s.content .allTop = some .empty := content_eq h.allTop
  have hbottom : s.content .allBottom = none := content_eq h.allBottom
  have halive : ∀ t : JoinTree, (∀ ef ∈ t.handles, ef ∈ [a, b, c, .allTop, .allBottom]) →
      ∀ ef ∈ t.handles, s.Alive ef := by
    intro t ht ef hef
    have hmem := ht ef hef
    simp only [List.mem_cons, List.not_mem_nil, or_false] at hmem
    rcases hmem with rfl | rfl | rfl | rfl | rfl
    · exact ha
    · exact hb
    · exact hc
    · exact ⟨_, h.allTop⟩
    · exact ⟨_, h.allBottom⟩
  have hsame : ∀ t u : JoinTree, (∀ ef ∈ t.handles, ef ∈ [a, b, c, .allTop, .allBottom]) →
      (∀ ef ∈ u.handles, ef ∈ [a, b, c, .allTop, .allBottom]) → t.content s = u.content s →
      SameHandle s t u := fun t u ht hu =>
    sameHandle_of_content h hnone (halive t ht) (halive u hu)
  refine ⟨?_, ?_, ?_, ?_, ?_, ?_, ?_, ?_⟩
  · exact hsame _ _ (by simp [JoinTree.handles]) (by simp [JoinTree.handles])
      (Content.combine_comm _ _)
  · exact hsame _ _ (by simp [JoinTree.handles]) (by simp [JoinTree.handles])
      (Content.combine_self (hfits a))
  · exact hsame _ _ (by simp [JoinTree.handles]) (by simp [JoinTree.handles])
      (Content.combine_assoc _ _ _)
  · refine hsame _ _ (by simp [JoinTree.handles]) (by simp [JoinTree.handles]) ?_
    simp only [JoinTree.content]
    rw [Content.combine_comm, ← Content.combine_assoc, Content.combine_self (hfits a)]
  · refine hsame _ _ (by simp [JoinTree.handles]) (by simp [JoinTree.handles]) ?_
    simp only [JoinTree.content, htop]
    exact Content.empty_combine (hfits a)
  · refine hsame _ _ (by simp [JoinTree.handles]) (by simp [JoinTree.handles]) ?_
    simp only [JoinTree.content, htop]
    rw [Content.combine_comm, Content.empty_combine (hfits a)]
  · refine hsame _ _ (by simp [JoinTree.handles]) (by simp [JoinTree.handles]) ?_
    simp only [JoinTree.content, hbottom]
    exact Content.none_combine _
  · refine hsame _ _ (by simp [JoinTree.handles]) (by simp [JoinTree.handles]) ?_
    simp only [JoinTree.content, hbottom]
    exact Content.combine_none _

/-- A constant and three maps without a known join, one of them not cacheable. -/
def medley : List (Op (Flat Int64) NumberMap) :=
  [.leaf (.constant (.value 7)), .leaf (.custom (.scale 2)), .leaf (.custom (.shift 1)),
    .leaf (.custom (.rescue 5))]

/-- With joins of at most two parts, two of the maps fit into one join and three do not, in either
grouping. -/
theorem join_laws_medley :
    ∃ s x s' t t', build 2 medley = .ok s ∧
      JoinTree.eval (.join (.handle ⟨4⟩) (.handle ⟨5⟩)) s = .ok (x, s') ∧ x ≠ .allBottom ∧
      JoinTree.eval (.join (.join (.handle ⟨4⟩) (.handle ⟨5⟩)) (.handle ⟨6⟩)) s =
        .ok (.allBottom, t) ∧
      JoinTree.eval (.join (.handle ⟨4⟩) (.join (.handle ⟨5⟩) (.handle ⟨6⟩))) t =
        .ok (.allBottom, t') := by
  have hrun : (do
      let s ← build 2 medley
      let x ← JoinTree.eval (.join (.handle ⟨4⟩) (.handle ⟨5⟩)) s
      let y ← JoinTree.eval (.join (.join (.handle ⟨4⟩) (.handle ⟨5⟩)) (.handle ⟨6⟩)) s
      return (s.node? ⟨4⟩, s.node? ⟨5⟩, s.node? ⟨6⟩, x.1, y.1)) =
      .ok (some (.custom (.scale 2)), some (.custom (.shift 1)), some (.custom (.rescue 5)),
        ⟨7⟩, .allBottom) := by
    set_option synthInstance.maxSize 1024 in
    decide +kernel
  simp only [bind_eq_ok, pure_eq_ok, Prod.mk.injEq] at hrun
  obtain ⟨s, hs, ⟨x, s'⟩, hx, ⟨y, t⟩, hy, h₄, h₅, h₆, rfl, rfl⟩ := hrun
  obtain ⟨-, -, ⟨hassoc, -⟩, -⟩ := join_laws 2 medley s hs (fun _ _ => rfl) ⟨4⟩ ⟨5⟩ ⟨6⟩
    ⟨_, h₄⟩ ⟨_, h₅⟩ ⟨_, h₆⟩
  obtain ⟨z, t₁, hz, hafter⟩ := hassoc
  obtain ⟨rfl, rfl⟩ := Prod.mk.inj (Except.ok.inj (hy.symm.trans hz))
  obtain ⟨t', ht'⟩ := hafter t .refl
  exact ⟨s, _, s', t, t', hs, hx, by decide, hy, ht'⟩

end EdgeStore

end Tabulation
