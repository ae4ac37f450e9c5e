import Tabulation.Proofs.EdgeStore.Regular
import Tabulation.Proofs.Scale

/-!
# Levels of stored edge functions

A join either leaves the handle of an operand as it is or leads to a handle on a higher level, so a
label that is refined by joins changes only as often as there are levels, `Joined.level_lt`.

**Levels.** Above all-top come the payloads by height, then what the client cannot join, then
constants and joins by the depth of their seed and the number of their parts. All-bottom is above
everything, because joins hold at most as many parts as the limit of the store says.
-/

namespace Tabulation

variable {L K : Type} [JoinLattice L]

theorem EdgeStore.partsOf_of_isPart {node : EdgeNode L K} (hf : node.IsPart) (x : EdgeRef) :
    partsOf x node = [x] := by
  cases node with
  | constant c => exact absurd hf.constant nofun
  | join seed parts => exact absurd rfl (hf.join seed parts)
  | _ => rfl

variable [Payload K L]

/-- How far up a node is, in a store whose joins hold at most `limit` parts. -/
def EdgeNode.level (S : Scale L K) (limit : Nat) : EdgeNode L K → Nat
  | .allTop => 0
  | .custom k => S.height k + 1
  | .identity | .compose .. => S.maxHeight + 1
  | .constant c => S.maxHeight + S.depth c
  | .join seed parts => S.maxHeight + S.depth seed + parts.length
  | .allBottom => S.maxHeight + S.maxDepth + limit

/-- A part is no higher than a join of one part. -/
theorem EdgeNode.IsPart.level_le {node : EdgeNode L K} (h : node.IsPart) (S : Scale L K)
    (limit : Nat) : node.level S limit ≤ S.maxHeight + 1 := by
  cases node with
  | custom k => exact Nat.succ_le_succ (S.height_le k)
  | identity => exact Nat.le_refl _
  | compose a b => exact Nat.le_refl _
  | allTop => exact absurd h.constant nofun
  | allBottom => exact absurd h.constant nofun
  | constant c => exact absurd h.constant nofun
  | join seed parts => exact absurd rfl (h.join seed parts)

variable [Ord L] [Ord K]

namespace EdgeStore

/-- How far up a handle is. -/
def level (S : Scale L K) (s : EdgeStore L K) (ef : EdgeRef) : Nat :=
  match s.node? ef with
  | some node => node.level S s.joinLimit
  | none => 0

variable {S : Scale L K} {s s' : EdgeStore L K} {a b c x ef : EdgeRef} {node : EdgeNode L K}

theorem level_eq (hn : s.node? ef = some node) : s.level S ef = node.level S s.joinLimit := by
  unfold level
  rw [hn]

theorem level_mono (hle : s ≤ s') (ha : s.Alive ef) : s'.level S ef = s.level S ef := by
  obtain ⟨node, hn⟩ := ha
  rw [level_eq hn, level_eq (hle.1 _ _ hn), hle.2.1]

variable [DecidableEq L] [LawfulJoin L]

/-- All-bottom is above all other nodes. -/
theorem level_lt_allBottom (h : Regular s) (hlimit : 2 ≤ s.joinLimit)
    (hn : s.node? ef = some node) (hne : ef ≠ .allBottom) :
    s.level S ef < s.level S .allBottom := by
  rw [level_eq hn, level_eq h.allBottom]
  cases node with
  | identity => simp only [EdgeNode.level]; omega
  | allTop => simp only [EdgeNode.level]; omega
  | allBottom => exact absurd (h.eq_allBottom hn) hne
  | constant v =>
    have := S.depth_lt_max (h.normal_constant hn).2
    simp only [EdgeNode.level]
    omega
  | custom k =>
    have := S.height_le k
    simp only [EdgeNode.level]
    omega
  | compose f g => simp only [EdgeNode.level]; omega
  | join seed parts =>
    obtain ⟨hjoin, -⟩ := h.normal_join hn
    have := S.depth_lt_max hjoin.seed_ne
    have := hjoin.short
    simp only [EdgeNode.level]
    omega

theorem level_le (h : Regular s) (hlimit : 2 ≤ s.joinLimit) (ef : EdgeRef) :
    s.level S ef ≤ S.maxHeight + S.maxDepth + s.joinLimit := by
  have hbot : s.level S .allBottom = S.maxHeight + S.maxDepth + s.joinLimit :=
    level_eq h.allBottom
  cases hn : s.node? ef with
  | none => simp [level, hn]
  | some node =>
    by_cases hne : ef = .allBottom
    · rw [hne, hbot]
    · exact Nat.le_of_lt (hbot ▸ level_lt_allBottom h hlimit hn hne)

/-- Nothing but all-top is at the very bottom of the scale. -/
theorem level_pos (h : Regular s) (hlimit : 2 ≤ s.joinLimit) (hn : s.node? ef = some node)
    (hne : ef ≠ .allTop) : 0 < s.level S ef := by
  rw [level_eq hn]
  cases node with
  | allTop => exact absurd (h.eq_allTop hn) hne
  | constant v =>
    have := S.depth_pos (h.normal_constant hn).1
    simp only [EdgeNode.level]
    omega
  | join seed parts =>
    obtain ⟨hjoin, -⟩ := h.normal_join hn
    have := List.length_pos_iff.2 hjoin.nonempty
    simp only [EdgeNode.level]
    omega
  | _ => simp only [EdgeNode.level]; omega

/-! ## Joins go up -/

section Made

variable {seed : L} {parts : List EdgeRef}

/-- A join is the operand, or above it, if it covers the operand's seed and holds its parts. -/
theorem Made.level_lt (hs : Regular s) (hlimit : 2 ≤ s.joinLimit) (hn : s.node? x = some node)
    (htop : x ≠ .allTop) (hbot : x ≠ .allBottom) (hseed : Below (addSeed top node) seed)
    (hparts : ∀ p ∈ partsOf x node, p ∈ parts) (hasc : parts.Pairwise (·.index < ·.index))
    (h : Made s seed parts c) : c = x ∨ s.level S x < s.level S c := by
  have hlt := level_lt_allBottom (S := S) hs hlimit hn hbot
  by_cases hpart : node.IsPart
  · rw [partsOf_of_isPart hpart] at hparts
    have hx : x ∈ parts := hparts x List.mem_cons_self
    rcases h.cases with ⟨rfl, -⟩ | ⟨-, hnil, -⟩ | ⟨-, rfl⟩ | ⟨hc, hne, hsingle⟩
    · exact .inr hlt
    · rw [hnil] at hx
      cases hx
    · exact .inl (List.mem_singleton.1 hx).symm
    · have hle := hpart.level_le S s.joinLimit
      have hlen := List.length_pos_iff.2 hne
      have hlevel : s.level S c = S.maxHeight + S.depth seed + parts.length := level_eq hc
      rw [level_eq hn, hlevel]
      right
      by_cases hone : parts.length = 1
      · have := S.depth_pos (hsingle hone)
        omega
      · omega
  cases node with
  | identity => exact absurd ⟨rfl, nofun⟩ hpart
  | custom k => exact absurd ⟨rfl, nofun⟩ hpart
  | compose f g => exact absurd ⟨rfl, nofun⟩ hpart
  | allTop => exact absurd (hs.eq_allTop hn) htop
  | allBottom => exact absurd (hs.eq_allBottom hn) hbot
  | constant v =>
    obtain ⟨hvtop, -⟩ := hs.normal_constant hn
    change Below (JoinLattice.join top v) seed at hseed
    rw [top_join] at hseed
    have hseedTop : seed ≠ top := fun he => hvtop (Below.antisymm (he ▸ hseed) (top_below v))
    rcases h.cases with ⟨rfl, -⟩ | ⟨hseedBot, -, hc⟩ | ⟨he, -⟩ | ⟨hc, hne, -⟩
    · exact .inr hlt
    · cases hc with
      | top he => exact absurd he hseedTop
      | bottom _ he => exact absurd he hseedBot
      | node _ _ hc =>
        by_cases heq : v = seed
        · exact .inl (hs.unique rfl hc (heq ▸ hn))
        · have := S.depth_lt hseed heq
          rw [level_eq hn, level_eq hc]
          right
          simp only [EdgeNode.level]
          omega
    · exact absurd he hseedTop
    · have := S.depth_mono hseed
      have := List.length_pos_iff.2 hne
      rw [level_eq hn, level_eq hc]
      right
      simp only [EdgeNode.level]
      omega
  | join seed₀ parts₀ =>
    obtain ⟨hjoin, -⟩ := hs.normal_join hn
    change Below (JoinLattice.join top seed₀) seed at hseed
    rw [top_join] at hseed
    change ∀ p ∈ parts₀, p ∈ parts at hparts
    have hlen := length_le_of_ascending hjoin.ascending hparts
    have hpos := List.length_pos_iff.2 hjoin.nonempty
    rcases h.cases with ⟨rfl, -⟩ | ⟨-, rfl, -⟩ | ⟨rfl, rfl⟩ | ⟨hc, -, -⟩
    · exact .inr hlt
    · exact absurd hpos (by simpa using hlen)
    · have hone : parts₀.length = 1 := Nat.le_antisymm hlen hpos
      exact absurd (Below.antisymm hseed (top_below _)) (hjoin.single hone)
    · by_cases heq : seed₀ = seed ∧ parts.length ≤ parts₀.length
      · obtain ⟨rfl, hle⟩ := heq
        obtain rfl := eq_of_ascending hjoin.ascending hasc hparts hle
        exact .inl (hs.unique rfl hc hn)
      · have hdepth := S.depth_mono hseed
        have hdepth' : seed₀ ≠ seed → S.depth seed₀ < S.depth seed := S.depth_lt hseed
        rw [level_eq hn, level_eq hc]
        right
        simp only [EdgeNode.level]
        by_cases hseeds : seed₀ = seed
        · have : ¬ parts.length ≤ parts₀.length := fun hle => heq ⟨hseeds, hle⟩
          omega
        · have := hdepth' hseeds
          omega

end Made

/-- What the client answers for the join of two payloads is one of them, or above both. -/
theorem LeafAt.level_lt (hs : Regular s) (hlimit : 2 ≤ s.joinLimit) {f g k : K}
    (ha : s.node? a = some (.custom f)) (hb : s.node? b = some (.custom g))
    (hk : Payload.join? L f g = some k) (h : LeafAt s (.custom k) c) :
    (c = a ∨ s.level S a < s.level S c) ∧ (c = b ∨ s.level S b < s.level S c) := by
  have hf : Payload.constant? (L := L) f = none := hs.normal_custom ha
  have hg : Payload.constant? (L := L) g = none := hs.normal_custom hb
  have hla : s.level S a = S.height f + 1 := level_eq ha
  have hlb : s.level S b = S.height g + 1 := level_eq hb
  cases h with
  | folded hconst hc =>
    obtain ⟨hne, hlf, hlg⟩ := S.join_constant hf hg hk hconst
    have hlt : S.maxHeight < s.level S c := by
      cases hc with
      | top heq => exact absurd heq hne
      | bottom _ _ =>
        rw [level_eq hs.allBottom]
        simp only [EdgeNode.level]
        omega
      | node _ _ hc =>
        have := S.depth_pos hne
        rw [level_eq hc]
        simp only [EdgeNode.level]
        omega
    exact ⟨.inr (by omega), .inr (by omega)⟩
  | custom hconst hc =>
    obtain ⟨hcache, hkf, hkg⟩ := S.join_payload hf hg hk hconst
    have hkind : (kind? (EdgeNode.custom k : EdgeNode L K)).isSome := by
      simp [kind?, hcache]
    have hlc : s.level S c = S.height k + 1 := level_eq hc
    refine ⟨hkf.imp (fun heq => ?_) fun hlt => by omega,
      hkg.imp (fun heq => ?_) fun hlt => by omega⟩
    · exact hs.unique hkind hc (heq ▸ ha)
    · exact hs.unique hkind hc (heq ▸ hb)

/-- **Joins go up.** A join is an operand, or on a higher level than it. -/
theorem Joined.level_lt (hs : Regular s) (hlimit : 2 ≤ s.joinLimit) (ha : s.Alive a)
    (hb : s.Alive b) (h : Joined s a b c) :
    (c = a ∨ s.level S a < s.level S c) ∧ (c = b ∨ s.level S b < s.level S c) := by
  obtain ⟨f, hf⟩ := ha
  obtain ⟨g, hg⟩ := hb
  have htop : s.level S .allTop = 0 := level_eq hs.allTop
  unfold Joined at h
  split at h
  · next heq => exact ⟨.inl h, .inl (h.trans heq)⟩
  next hne =>
  split at h
  · next hatop =>
    subst hatop h
    exact ⟨.inr (htop ▸ level_pos hs hlimit hg (Ne.symm hne)), .inl rfl⟩
  next hatop =>
  split at h
  · next hbtop =>
    subst hbtop h
    exact ⟨.inl rfl, .inr (htop ▸ level_pos hs hlimit hf hne)⟩
  next hbtop =>
  have hbelow : ∀ {x node}, s.node? x = some node →
      EdgeRef.allBottom = x ∨ s.level S x < s.level S .allBottom := fun {x node} hn => by
    by_cases heq : x = .allBottom
    · exact .inl heq.symm
    · exact .inr (level_lt_allBottom hs hlimit hn heq)
  split at h
  · subst h
    exact ⟨hbelow hf, hbelow hg⟩
  next hbot =>
  obtain ⟨hab, hbb⟩ := not_or.1 hbot
  obtain ⟨f', g', hf', hg', h⟩ := h
  obtain rfl := Option.some.inj (hf.symm.trans hf')
  obtain rfl := Option.some.inj (hg.symm.trans hg')
  split at h
  · next k hk =>
    obtain ⟨p, q, rfl, rfl, hjoin⟩ := foldJoin_eq_some hk
    exact LeafAt.level_lt hs hlimit hf hg hjoin h
  · have hasc := ascending_sortParts (partsOf a f ++ partsOf b g)
    have hseed : addSeed (addSeed top f) g =
        JoinLattice.join (addSeed top f) (addSeed (top : L) g) := by
      cases g <;> simp [addSeed, LawfulJoin.join_top, top_join]
    refine ⟨Made.level_lt hs hlimit hf hatop hab ?_ (fun p hp => ?_) hasc h,
      Made.level_lt hs hlimit hg hbtop hbb ?_ (fun p hp => ?_) hasc h⟩
    · exact hseed ▸ below_join_left _ _
    · exact mem_sortParts.2 (List.mem_append_left _ hp)
    · exact hseed ▸ below_join_right _ _
    · exact mem_sortParts.2 (List.mem_append_right _ hp)

end EdgeStore

end Tabulation
