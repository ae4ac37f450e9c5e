import Tabulation.Proofs.CallChain.Program
import Tabulation.Proofs.Collection
import Tabulation.Proofs.FlowTargets

/-!
# Labels along the chain of calls

**Edges.** `Flows` lists what the statements do to the four facts, and `Drawing.flows` that these
are all edges inside a level. Calls and returns change nothing.

**Labels.** Each path edge has one edge function, `LabelAt`. A call of level `k + 1` adds one to `x`
at each level from there on, `depth - k` in all, and sets `y` to three times the result. So labels
in `main` are constants, and all others are affine.

Main result: `spelling`.
-/

namespace Tabulation

namespace CallChain

/-! ## Functions -/

/-- Adds a number. -/
def plus (c : Nat) : Affine := ⟨1, Int64.ofNat c, Affine.odd_one⟩

/-- Adds a number and multiplies by three. -/
def triple (c : Nat) : Affine := ⟨3, Int64.ofNat (3 * c), Affine.odd_three⟩

/-- A constant. -/
def constant (n : Nat) : EdgeFunction (Flat Int64) Affine := .constant (.value (Int64.ofNat n))

section Compositions

variable (m n : Nat)

theorem constant?_custom (f : Affine) :
    (EdgeFunction.custom f : EdgeFunction (Flat Int64) Affine).constant? = none :=
  f.constant?_toMap

theorem constant_andThen? (f : Affine) : (constant m).andThen? (.custom f) =
    some (.constant (.value (f.slope * Int64.ofNat m + f.offset))) := by
  simp only [EdgeFunction.andThen?, constant, constant?_custom]
  rfl

theorem custom_andThen? (f g : Affine) : EdgeFunction.andThen? (.custom f) (.custom g) =
    some (.custom (f.andThen g) : EdgeFunction (Flat Int64) Affine) := by
  simp only [EdgeFunction.andThen?, constant?_custom]
  rfl

theorem constant_plus : (constant m).andThen? (.custom (plus n)) = some (constant (m + n)) := by
  rw [constant_andThen?]
  simp [plus, constant]

theorem constant_triple :
    (constant m).andThen? (.custom (triple n)) = some (constant (3 * (m + n))) := by
  rw [constant_andThen?]
  simp [triple, constant, Nat.mul_add]

theorem plus_plus : EdgeFunction.andThen? (.custom (plus m)) (.custom (plus n)) =
    some (.custom (plus (m + n)) : EdgeFunction (Flat Int64) Affine) := by
  rw [custom_andThen?]
  simp [plus, Affine.andThen]

theorem plus_triple : EdgeFunction.andThen? (.custom (plus m)) (.custom (triple n)) =
    some (.custom (triple (m + n)) : EdgeFunction (Flat Int64) Affine) := by
  rw [custom_andThen?]
  simp [plus, triple, Affine.andThen, Nat.mul_add]

end Compositions

/-! ## Edges -/

/-- The facts of the analysis: the zero fact and the variables. -/
inductive Fact where
  | zero
  | x
  | y
  | z
  deriving DecidableEq

/-- The name of a fact. -/
def Fact.name : Fact → String
  | .zero => CallChain.zero
  | .x => "x"
  | .y => "y"
  | .z => "z"

theorem Fact.name_inj {u v : Fact} : u.name = v.name ↔ u = v := by
  cases u <;> cases v <;> decide

theorem Fact.eq_zero {u : Fact} (h : u.name = CallChain.zero) : u = .zero := Fact.name_inj.1 h

/-- The variable that the statement at a node assigns to. -/
def assigned? : Nat → Nat → Option Fact
  | _, 0 => some .x
  | 0, 2 => some .z
  | _ + 1, 2 => some .y
  | _, _ => none

/-- The edges inside a level, from a node to the next one. -/
inductive Flows (depth : Nat) : Nat → Nat → Fact → Fact → EdgeFunction (Flat Int64) Affine → Prop
  /-- The zero fact always holds. -/
  | zero {k j : Nat} : Flows depth k j .zero .zero .identity
  /-- Calls pass nothing by, and assignments forget the old value. -/
  | keep {k j : Nat} {u : Fact} : u ≠ .zero → ¬ callsAt depth k j → assigned? k j ≠ some u →
      Flows depth k j u u .identity
  | init : Flows depth 0 0 .zero .x (constant 1)
  | copy : Flows depth 0 2 .x .z (.custom (plus 0))
  | increment {k : Nat} : Flows depth (k + 1) 0 .x .x (.custom (plus 1))
  | triple {k : Nat} : Flows depth (k + 1) 2 .x .y (.custom (triple 0))

theorem mem_image_transfer {s t u : Fact} {w : String}
    (h : w ∈ (FlowFunction.transfer s.name t.name).image u.name) :
    ∃ v : Fact, w = v.name ∧ (u = s ∧ (v = s ∨ v = t) ∨ u ≠ s ∧ u ≠ t ∧ v = u) := by
  simp only [FlowFunction.image, Fact.name_inj] at h
  split_ifs at h with hs ht
  · rcases h with rfl | rfl
    · exact ⟨s, rfl, .inl ⟨hs, .inl rfl⟩⟩
    · exact ⟨t, rfl, .inl ⟨hs, .inr rfl⟩⟩
  · cases h
  · obtain rfl := h
    exact ⟨u, rfl, .inr ⟨hs, ht, rfl⟩⟩

theorem edgeOf_assign {s t u v : Fact} {f : Affine} :
    edgeOf u.name v.name (some (.assign t.name s.name f)) =
      if u = s ∧ v = t then .custom f else .identity := by
  simp only [edgeOf, Fact.name_inj]

theorem edgeOf_assignConst {t u v : Fact} {c : Int64} :
    edgeOf u.name v.name (some (.assignConst t.name c)) =
      if u = .zero ∧ v = t then .constant (.value c) else .identity := by
  simp only [edgeOf, ← Fact.name_inj]
  rfl

theorem edgeOf_zero (k j : Nat) : edgeOf zero zero (statementAt k j) = .identity := by
  match k, j with
  | 0, 0 | 0, 2 | _ + 1, 0 | _ + 1, 2 => rfl
  | 0, 1 | _ + 1, 1 | 0, _ + 3 | _ + 1, _ + 3 => rfl

section Statements

variable {depth k j : Nat} (hcalls : ¬ callsAt depth k j) {u : Fact} {w : String}

include hcalls

/-- A node without a statement keeps everything. -/
theorem flows_of_none (hnone : assigned? k j = none)
    (h : w ∈ (flowOf none).image u.name) :
    ∃ v : Fact, w = v.name ∧ Flows depth k j u v (edgeOf u.name w none) := by
  obtain rfl := h
  refine ⟨u, rfl, ?_⟩
  by_cases hu : u = .zero
  · exact hu ▸ .zero
  · exact .keep hu hcalls (by rw [hnone]; nofun)

/-- An assignment makes the source flow to the target. -/
theorem flows_of_assign {s t : Fact} {f : Affine} (hs : s ≠ .zero)
    (hassigned : assigned? k j = some t) (hflow : Flows depth k j s t (.custom f))
    (h : w ∈ (flowOf (some (.assign t.name s.name f))).image u.name) :
    ∃ v : Fact, w = v.name ∧
      Flows depth k j u v (edgeOf u.name w (some (.assign t.name s.name f))) := by
  obtain ⟨v, rfl, ⟨rfl, hv⟩ | ⟨hus, hut, rfl⟩⟩ := mem_image_transfer h
  · refine ⟨v, rfl, ?_⟩
    rw [edgeOf_assign]
    split
    · next hvt => exact hvt.2 ▸ hflow
    · next hvt =>
      obtain rfl := hv.resolve_right fun hv => hvt ⟨rfl, hv⟩
      exact .keep hs hcalls fun heq => hvt ⟨rfl, (Option.some.inj (hassigned.symm.trans heq)).symm⟩
  · refine ⟨v, rfl, ?_⟩
    rw [edgeOf_assign, if_neg fun h => hus h.1]
    by_cases hu : v = .zero
    · exact hu ▸ .zero
    · exact .keep hu hcalls fun heq => hut (Option.some.inj (hassigned.symm.trans heq)).symm

/-- An assignment of a constant makes the zero fact flow to the target. -/
theorem flows_of_assignConst {t : Fact} {c : Int64} (ht : t ≠ .zero)
    (hassigned : assigned? k j = some t) (hflow : Flows depth k j .zero t (.constant (.value c)))
    (h : w ∈ (flowOf (some (.assignConst t.name c))).image u.name) :
    ∃ v : Fact, w = v.name ∧
      Flows depth k j u v (edgeOf u.name w (some (.assignConst t.name c))) := by
  obtain ⟨v, rfl, ⟨rfl, hv⟩ | ⟨hus, hut, rfl⟩⟩ := mem_image_transfer (s := .zero) h
  · refine ⟨v, rfl, ?_⟩
    rw [edgeOf_assignConst]
    rcases hv with rfl | rfl
    · rw [if_neg fun h => ht h.2.symm]
      exact .zero
    · rw [if_pos ⟨rfl, rfl⟩]
      exact hflow
  · refine ⟨v, rfl, ?_⟩
    rw [edgeOf_assignConst, if_neg fun h => hus h.1]
    exact .keep hus hcalls fun heq => hut (Option.some.inj (hassigned.symm.trans heq)).symm

/-- What the statement at a node does. -/
theorem flows_of_statement (h : w ∈ (flowOf (statementAt k j)).image u.name) :
    ∃ v : Fact, w = v.name ∧ Flows depth k j u v (edgeOf u.name w (statementAt k j)) := by
  match k, j with
  | 0, 0 => exact flows_of_assignConst hcalls (t := .x) (by decide) rfl .init h
  | 0, 2 => exact flows_of_assign hcalls (s := .x) (t := .z) (by decide) rfl .copy h
  | _ + 1, 0 => exact flows_of_assign hcalls (s := .x) (t := .x) (by decide) rfl .increment h
  | _ + 1, 2 => exact flows_of_assign hcalls (s := .x) (t := .y) (by decide) rfl .triple h
  | 0, 1 | _ + 1, 1 | 0, _ + 3 | _ + 1, _ + 3 => exact flows_of_none hcalls rfl h

end Statements

/-! ## Edges of the analysis -/

section Analysis

variable {depth : Nat} {g : Supergraph} {config : Config}

/-- The analysis of a program. -/
abbrev analysisOf (depth : Nat) (g : Supergraph) (config : Config) :
    Analysis String (Flat Int64) Affine := ⟨problem depth, g, config⟩

theorem mem_targets {f : FlowFunction String} {d t : String}
    (h : t ∈ (analysisOf depth g config).targets f d) : t ∈ f.image d ∨ d = zero ∧ t = zero := by
  rcases (Answers.mem_targets_iff _ f d t).1 h with h | ⟨-, hd, ht⟩
  · exact .inl ((f.mem_targets_iff_image d t).1 h)
  · exact .inr ⟨hd, ht⟩

variable (h : Drawing depth g) {k j : Nat} (hk : k ≤ depth) (hj : j < lengthAt k) {u : Fact}
  {m t : String} {e : EdgeFunction (Flat Int64) Affine}

include h hk hj

/-- All edges inside a level go to the next node, as `Flows` says. -/
theorem Drawing.flows (he : (analysisOf depth g config).Inside (nodeAt k j) u.name m t e) :
    j + 1 < lengthAt k ∧ m = nodeAt k (j + 1) ∧ ∃ v : Fact, t = v.name ∧ Flows depth k j u v e := by
  have hsucc := (h.succ_iff hk hj).1 he.succ
  refine ⟨hsucc.1, hsucc.2, ?_⟩
  have hzero : u.name = zero ∧ t = zero → ∃ v : Fact, t = v.name ∧ Flows depth k j u v .identity :=
    fun ⟨hu, ht⟩ => ⟨.zero, ht, by rw [Fact.eq_zero hu]; exact .zero⟩
  cases he with
  | normal hsite _ ht =>
    have hcalls : ¬ callsAt depth k j :=
      of_decide_eq_false (Except.ok.inj ((h.isCallSite hk hj).symm.trans hsite))
    have hstatement : (statements depth)[nodeAt k j]? = statementAt k j := by
      rw [getElem?_statements, if_pos hk]
    rcases mem_targets ht with ht | ht
    · have ht : t ∈ (flowOf (statements depth)[nodeAt k j]?).image u.name := ht
      rw [hstatement] at ht
      obtain ⟨v, rfl, hv⟩ := flows_of_statement hcalls ht
      refine ⟨v, rfl, ?_⟩
      show Flows depth k j u v (edgeOf u.name v.name (statements depth)[nodeAt k j]?)
      rw [hstatement]
      exact hv
    · have hedge : (problem depth).normalEdge (nodeAt k j) u.name m t = .identity := by
        rw [ht.1, ht.2]
        show edgeOf zero zero (statements depth)[nodeAt k j]? = .identity
        rw [hstatement, edgeOf_zero]
      exact hedge ▸ hzero ht
  | bypass _ _ _ ht =>
    rcases mem_targets ht with ht | ht
    · cases ht
    · exact hzero ht
  | summary _ hf => cases hf

/-- Calls enter the next level with the same fact. -/
theorem Drawing.enters {q : String}
    (he : (analysisOf depth g config).Enter (nodeAt k j) u.name q t e) :
    callsAt depth k j ∧ q = procAt (k + 1) ∧ t = u.name ∧ e = .identity := by
  cases he with
  | intro hcall _ ht =>
    obtain ⟨hsite, rfl⟩ := (h.calls_iff hk hj).1 hcall
    refine ⟨hsite, rfl, ?_, rfl⟩
    rcases mem_targets ht with ht | ⟨hu, ht⟩
    · exact ht
    · exact ht.trans hu.symm

/-- Returns lead from the last node of a level to the node after the call with the same fact. -/
theorem Drawing.leaves {l : Nat} {x : String} (hl : l ≤ depth)
    (he : (analysisOf depth g config).Leave (nodeAt k j) (procAt l) x u.name m t e) :
    x = nodeAt l (lengthAt l - 1) ∧ j + 1 < lengthAt k ∧ m = nodeAt k (j + 1) ∧ t = u.name ∧
      e = .identity := by
  obtain ⟨hjk, rfl⟩ := (h.succ_iff hk hj).1 he.succ
  cases he with
  | intro hexit _ _ ht =>
    refine ⟨(h.exitOf_iff hl).1 hexit, hjk, rfl, ?_, rfl⟩
    rcases mem_targets ht with ht | ⟨hu, ht⟩
    · exact ht
    · exact ht.trans hu.symm

end Analysis

/-! ## Labels -/

/-- The number of calls that `main` has returned from at a position. -/
def returnedAt (j : Nat) : Nat := if j ≤ 1 then 0 else if j ≤ 3 then 1 else 2

/-- The edge function from a fact at the entry of a level to a fact at a position. -/
inductive LabelAt (depth : Nat) : Nat → Nat → Fact → Fact → EdgeFunction (Flat Int64) Affine → Prop
  | zero {k j : Nat} : LabelAt depth k j .zero .zero .identity
  /-- Each call adds `depth` to `x`. -/
  | mainX {j : Nat} : 1 ≤ j → LabelAt depth 0 j .zero .x (constant (1 + returnedAt j * depth))
  | mainY {j : Nat} : 2 ≤ j → 0 < depth →
      LabelAt depth 0 j .zero .y (constant (3 * (1 + returnedAt j * depth)))
  | mainZ {j : Nat} : 3 ≤ j → LabelAt depth 0 j .zero .z (constant (1 + depth))
  | z {k j : Nat} : LabelAt depth (k + 1) j .z .z .identity
  | y {k j : Nat} : j ≤ 2 → LabelAt depth (k + 1) j .y .y .identity
  | x {k : Nat} : LabelAt depth (k + 1) 0 .x .x .identity
  | incremented {k : Nat} : LabelAt depth (k + 1) 1 .x .x (.custom (plus 1))
  | returned {k j : Nat} : 2 ≤ j → LabelAt depth (k + 1) j .x .x (.custom (plus (depth - k)))
  | tripled {k j : Nat} : 2 ≤ j → LabelAt depth (k + 1) j .x .y (.custom (triple (depth - k)))

/-- Between calls `main` returns from nothing, and without a chain there are no calls. -/
theorem returnedAt_succ {depth j : Nat} (hj : 1 ≤ j) (hcalls : ¬ callsAt depth 0 j) :
    returnedAt (j + 1) * depth = returnedAt j * depth := by
  by_cases hsite : j = 1 ∨ j = 3
  · have hdepth : depth = 0 := Nat.eq_zero_of_not_pos fun hpos => hcalls ⟨hpos, by omega⟩
    rw [hdepth, Nat.mul_zero, Nat.mul_zero]
  · have heq : returnedAt (j + 1) = returnedAt j := by
      unfold returnedAt
      split_ifs <;> omega
    rw [heq]

theorem returnedAt_call {depth j : Nat} (hcalls : callsAt depth 0 j) :
    returnedAt j * depth + depth = returnedAt (j + 1) * depth := by
  have heq : returnedAt (j + 1) = returnedAt j + 1 := by
    obtain ⟨-, rfl | ⟨-, rfl⟩⟩ := hcalls <;> rfl
  rw [heq, Nat.succ_mul]

namespace LabelAt

variable {depth k j : Nat} {a b d t : Fact} {e f g : EdgeFunction (Flat Int64) Affine}

theorem unique (hf : LabelAt depth k j a d f) (hg : LabelAt depth k j a d g) : f = g := by
  cases hf <;> cases hg <;> grind

/-- A fact that is kept keeps its edge function. -/
theorem keep (hk : k ≤ depth) (hj : j + 1 < lengthAt k) (h : LabelAt depth k j a d f)
    (hd : d ≠ .zero) (hcalls : ¬ callsAt depth k j) (hassigned : assigned? k j ≠ some d) :
    LabelAt depth k (j + 1) a d f := by
  cases h with
  | zero => exact absurd rfl hd
  | mainX hj =>
    rw [← returnedAt_succ hj hcalls]
    exact .mainX (by omega)
  | mainY hj hdepth =>
    rw [← returnedAt_succ (by omega) hcalls]
    exact .mainY (by omega) hdepth
  | mainZ hj => exact .mainZ (by omega)
  | z => exact .z
  | y hj =>
    have hne : j ≠ 2 := fun h => hassigned (by rw [h]; rfl)
    exact .y (by omega)
  | x => exact absurd rfl hassigned
  | @incremented k =>
    -- The last level makes no call.
    have hlast : depth - k = 1 := by
      have := mt (fun h => (⟨h, .inl rfl⟩ : callsAt depth (k + 1) 1)) hcalls
      omega
    have hlabel : LabelAt depth (k + 1) 2 .x .x (.custom (plus (depth - k))) :=
      .returned (Nat.le_refl 2)
    rwa [hlast] at hlabel
  | returned hj => exact .returned (by omega)
  | tripled hj' =>
    obtain rfl : j = 2 := by
      change j + 1 < 4 at hj
      omega
    exact absurd rfl hassigned

/-- The edge functions inside a level follow each other. -/
theorem step (hk : k ≤ depth) (hj : j + 1 < lengthAt k) (h : LabelAt depth k j a d f)
    (he : Flows depth k j d t e) : ∃ h, f.andThen? e = some h ∧ LabelAt depth k (j + 1) a t h := by
  cases he with
  | zero =>
    cases h with
    | zero => exact ⟨_, rfl, .zero⟩
  | keep hd hcalls hassigned =>
    exact ⟨f, EdgeFunction.andThen?_identity f, h.keep hk hj hd hcalls hassigned⟩
  | init =>
    cases h with
    | zero =>
      refine ⟨_, rfl, ?_⟩
      have hlabel : LabelAt depth 0 1 .zero .x (constant (1 + returnedAt 1 * depth)) :=
        .mainX (Nat.le_refl 1)
      rwa [show returnedAt 1 = 0 from rfl, Nat.zero_mul] at hlabel
  | copy =>
    cases h with
    | mainX _ =>
      refine ⟨_, constant_plus _ 0, ?_⟩
      rw [show returnedAt 2 = 1 from rfl, Nat.one_mul]
      exact .mainZ (Nat.le_refl 3)
  | increment =>
    cases h with
    | x => exact ⟨_, rfl, .incremented⟩
    | returned hj => omega
  | triple =>
    cases h with
    | returned _ => exact ⟨_, plus_triple _ 0, .tripled (by omega)⟩

/-- The edge function of a level that was called leads on after the call. -/
theorem call (hcalls : callsAt depth k j) (hf : LabelAt depth k j a b f)
    (hg : LabelAt depth (k + 1) 3 b d g) :
    ∃ h, f.andThen? g = some h ∧ LabelAt depth k (j + 1) a d h := by
  have ⟨hk, hj⟩ := hcalls
  cases hg with
  | zero =>
    cases hf with
    | zero => exact ⟨_, rfl, .zero⟩
  | z =>
    refine ⟨f, EdgeFunction.andThen?_identity f, ?_⟩
    cases hf with
    | mainZ hj => exact .mainZ (by omega)
    | z => exact .z
  | y hle => omega
  | returned _ =>
    cases hf with
    | mainX _ =>
      refine ⟨_, constant_plus _ _, ?_⟩
      rw [Nat.sub_zero, Nat.add_assoc, returnedAt_call hcalls]
      exact .mainX (by omega)
    | x => omega
    | @incremented k =>
      refine ⟨_, plus_plus _ _, ?_⟩
      rw [show 1 + (depth - (k + 1)) = depth - k by omega]
      exact .returned (Nat.le_refl 2)
    | returned _ => omega
  | tripled _ =>
    cases hf with
    | mainX _ =>
      refine ⟨_, constant_triple _ _, ?_⟩
      rw [Nat.sub_zero, Nat.add_assoc, returnedAt_call hcalls]
      exact .mainY (by omega) hk
    | x => omega
    | @incremented k =>
      refine ⟨_, plus_triple _ _, ?_⟩
      rw [show 1 + (depth - (k + 1)) = depth - k by omega]
      exact .tripled (Nat.le_refl 2)
    | returned _ => omega

end LabelAt

/-- The edge functions of the program, by names. -/
def Label (depth : Nat) : Analysis.Labelling String (Flat Int64) Affine := fun p a n d f =>
  ∃ (k j : Nat) (u v : Fact), k ≤ depth ∧ j < lengthAt k ∧ p = procAt k ∧ a = u.name ∧
    n = nodeAt k j ∧ d = v.name ∧ LabelAt depth k j u v f

section Spelling

variable {depth : Nat} {g : Supergraph} {config : Config}

theorem mem_seeds {n a : String} {u : Flat Int64} :
    (n, a, u) ∈ (problem depth).seeds.toList ↔ n = nodeAt 0 0 ∧ a = zero ∧ u = .bottom := by
  show (n, a, u) ∈ [(nodeAt 0 0, zero, Flat.bottom)] ↔ _
  simp

theorem mem_label {k j : Nat} {u v : Fact} {f : EdgeFunction (Flat Int64) Affine} :
    Label depth (procAt k) u.name (nodeAt k j) v.name f ↔
      k ≤ depth ∧ j < lengthAt k ∧ LabelAt depth k j u v f := by
  constructor
  · rintro ⟨k', j', u', v', hk, hj, -, ha, hn, hd, hf⟩
    obtain ⟨rfl, rfl⟩ := nodeAt_inj.1 hn
    obtain rfl := Fact.name_inj.1 ha
    obtain rfl := Fact.name_inj.1 hd
    exact ⟨hk, hj, hf⟩
  · rintro ⟨hk, hj, hf⟩
    exact ⟨k, j, u, v, hk, hj, rfl, rfl, rfl, rfl, hf⟩

/-- Each path edge has one edge function. -/
theorem spelling (h : Drawing depth g) (hvalues : config.computeValues = true)
    (htable : config.useSummaryTable = true) :
    (analysisOf depth g config).Spelling (Label depth) where
  valued := ⟨hvalues, Affine.lawfulLabels⟩
  shared := Affine.sharedPayloads
  exits := .inl htable
  unique := by
    rintro _ _ _ _ f g ⟨k, j, u, v, -, -, rfl, rfl, rfl, rfl, hf⟩ hg
    exact hf.unique (mem_label.1 hg).2.2
  seed := by
    intro p n a u hseed hp
    obtain ⟨rfl, rfl, -⟩ := mem_seeds.1 hseed
    obtain rfl := Except.ok.inj ((h.procOf (Nat.zero_le depth) (lengthAt_pos 0)).symm.trans hp)
    exact mem_label.2 ⟨Nat.zero_le depth, lengthAt_pos 0, .zero⟩
  inside := by
    rintro _ _ m _ _ t f e ⟨k, j, u, v, hk, hj, rfl, rfl, rfl, rfl, hf⟩ he
    obtain ⟨hj', rfl, w, rfl, hflow⟩ := h.flows hk hj he
    obtain ⟨i, hi, hlabel⟩ := hf.step hk hj' hflow
    exact ⟨i, hi, mem_label.2 ⟨hk, hj', hlabel⟩⟩
  call := by
    rintro _ _ q _ _ c f e ⟨k, j, u, v, hk, hj, rfl, rfl, rfl, rfl, hf⟩ he
    obtain ⟨-, -, -, rfl⟩ := h.enters hk hj he
    exact ⟨f, EdgeFunction.andThen?_identity f⟩
  enter := by
    rintro _ _ q sp _ _ c f e ⟨k, j, u, v, hk, hj, rfl, rfl, rfl, rfl, hf⟩ he hsp
    obtain ⟨hcalls, rfl, rfl, -⟩ := h.enters hk hj he
    obtain rfl := (h.startOf_iff hcalls.1).1 hsp
    refine mem_label.2 ⟨hcalls.1, lengthAt_pos _, ?_⟩
    cases v with
    | zero => exact .zero
    | x => exact .x
    | y => exact .y (Nat.zero_le 2)
    | z => exact .z
  across := by
    rintro _ _ q x m _ _ c _ t f e g e' i ⟨k, j, u, v, hk, hj, rfl, rfl, rfl, rfl, hf⟩ he hi
      ⟨l, i', u', w, hl, hi', hproc, hc, rfl, rfl, hg⟩ he'
    obtain ⟨hcalls, rfl, rfl, rfl⟩ := h.enters hk hj he
    obtain rfl := Option.some.inj ((EdgeFunction.andThen?_identity f).symm.trans hi)
    obtain rfl := procAt_inj.1 hproc
    obtain rfl := Fact.name_inj.1 hc
    obtain ⟨hexit, hj', rfl, rfl, rfl⟩ := h.leaves hk hj hl he'
    obtain rfl : i' = 3 := (nodeAt_inj.1 hexit).2
    obtain ⟨r, hr, hlabel⟩ := hf.call hcalls hg
    exact ⟨r, r, hr, EdgeFunction.andThen?_identity r, mem_label.2 ⟨hk, hj', hlabel⟩⟩

end Spelling

end CallChain

end Tabulation
