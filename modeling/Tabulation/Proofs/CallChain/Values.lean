import Tabulation.Example.Options
import Tabulation.Proofs.CallChain.Labels
import Tabulation.Proofs.SoleLabels
import Tabulation.Proofs.WholeRuns

/-!
# Values along the chain of calls

The example analysis finds the constants of its program at every depth, in every mode of collection
and in both orders of pending work, `values_of_chain`.

**Facts.** `x` and `z` go through every level of the chain, `Drawing.through`, and `y` is set at its
end. So they hold in `main` after each call.

**Values.** Labels in `main` are constants. There is one for each fact at a node, and by
`Spelling.valueAt_eq` that is the value.

**Numbers.** A fact is derived at every node, so a run that returns has numbered them all,
`Drawing.ids_lt`. Other runs end because there is no number left, `Drawing.solve_cases`.

**Collection.** All nodes in question are exit points or come after a call, so they are shown in
every mode. Names are numbered alike in every mode.
-/

namespace Tabulation

namespace CallChain

section Facts

variable {depth : Nat} {g : Supergraph} {config : Config} (h : Drawing depth g) {k j : Nat}
  {p a b d t : String}

theorem mem_targets_of_image {f : FlowFunction String} (ht : t ∈ f.image d) :
    t ∈ (analysisOf depth g config).targets f d :=
  (Answers.mem_targets_iff _ f d t).2 (.inl ((f.mem_targets_iff_image d t).2 ht))

/-- The statements of the chain keep `x` and `z`. -/
theorem mem_image_chain (hb : b = "x" ∨ b = "z") (k j : Nat) :
    b ∈ (flowOf (statementAt (k + 1) j)).image b := by
  match j with
  | 0 | 2 => rcases hb with rfl | rfl <;> simp [statementAt, flowOf, FlowFunction.image]
  | 1 | j + 3 => rfl

include h

/-- Facts go to the next node as the statement says. -/
theorem Drawing.advance (hk : k ≤ depth) (hj : j + 1 < lengthAt k) (hcalls : ¬ callsAt depth k j)
    (hd : (analysisOf depth g config).Derives p a (nodeAt k j) d)
    (ht : t ∈ (flowOf (statementAt k j)).image d) :
    (analysisOf depth g config).Derives p a (nodeAt k (j + 1)) t := by
  have hlt := Nat.lt_of_succ_lt hj
  have hsite := h.isCallSite hk hlt
  rw [decide_eq_false hcalls] at hsite
  refine hd.inside (.normal hsite ((h.succ_iff hk hlt).2 ⟨hj, rfl⟩) (mem_targets_of_image ?_))
  show t ∈ (flowOf (statements depth)[nodeAt k j]?).image d
  rwa [getElem?_statements, if_pos hk]

/-- A call takes facts to the next level. -/
theorem Drawing.into (hcalls : callsAt depth k j) (hj : j < lengthAt k)
    (hd : (analysisOf depth g config).Derives p a (nodeAt k j) d) :
    (analysisOf depth g config).Derives (procAt (k + 1)) d (nodeAt (k + 1) 0) d :=
  hd.enter (.intro ((h.calls_iff (Nat.le_of_lt hcalls.1) hj).2 ⟨hcalls, rfl⟩) rfl
    (mem_targets_of_image (f := .identity) rfl)) ((h.startOf_iff hcalls.1).2 rfl)

/-- A call brings back what the last statement of the next level makes of a fact. -/
theorem Drawing.past (hcalls : callsAt depth k j) (hj : j + 1 < lengthAt k)
    (hb : (analysisOf depth g config).Derives p a (nodeAt k j) b)
    (hd : (analysisOf depth g config).Derives (procAt (k + 1)) b (nodeAt (k + 1) 2) d)
    (ht : t ∈ (flowOf (statementAt (k + 1) 2)).image d) :
    (analysisOf depth g config).Derives p a (nodeAt k (j + 1)) t := by
  have hk := Nat.le_of_lt hcalls.1
  have hlt := Nat.lt_of_succ_lt hj
  have hexit := h.advance hcalls.1 (by decide : 3 < 4) (by simp [callsAt]) hd ht
  have hsite := h.isCallSite hcalls.1 (show 3 < lengthAt (k + 1) from Nat.lt_succ_self 3)
  rw [decide_eq_false fun h => by simp [callsAt] at h] at hsite
  exact hb.across (.intro ((h.calls_iff hk hlt).2 ⟨hcalls, rfl⟩) rfl
    (mem_targets_of_image (f := .identity) rfl)) ((h.startOf_iff hcalls.1).2 rfl) hexit
    (.intro ((h.exitOf_iff hcalls.1).2 rfl) hsite ((h.succ_iff hk hlt).2 ⟨hj, rfl⟩)
      (mem_targets_of_image (f := .identity) rfl))

/-- The variables `x` and `z` go through every level of the chain. -/
theorem Drawing.through (hb : b = "x" ∨ b = "z") (hk : k < depth)
    (h₀ : (analysisOf depth g config).Derives (procAt (k + 1)) b (nodeAt (k + 1) 0) b) :
    (analysisOf depth g config).Derives (procAt (k + 1)) b (nodeAt (k + 1) 2) b := by
  -- The induction is on the number of levels that are left.
  induction hn : depth - k generalizing k with
  | zero => omega
  | succ n ih =>
    have h₁ := h.advance hk (by decide : 1 < 4) (by simp [callsAt]) h₀ (mem_image_chain hb k 0)
    by_cases hcalls : callsAt depth (k + 1) 1
    · have h₂ := ih hcalls.1 (h.into hcalls (by decide : 1 < 4) h₁) (by omega)
      exact h.past hcalls (by decide : 2 < 4) h₁ h₂ (mem_image_chain hb (k + 1) 2)
    · exact h.advance hk (by decide : 2 < 4) hcalls h₁ (mem_image_chain hb k 1)

/-- A call in `main` gives what the last assignment of the first level gives. -/
theorem Drawing.afterCall (hb : b = "x" ∨ b = "z") (hcalls : callsAt depth 0 j) (hj : j + 1 < 6)
    (hd : (analysisOf depth g config).Derives p a (nodeAt 0 j) b)
    (ht : t ∈ (flowOf (statementAt 1 2)).image b) :
    (analysisOf depth g config).Derives p a (nodeAt 0 (j + 1)) t :=
  h.past hcalls hj hd (h.through hb hcalls.1 (h.into hcalls (Nat.lt_of_succ_lt hj) hd)) ht

/-- The variable `x`, and `z` once it was assigned, hold at the next node of `main`. -/
theorem Drawing.onwards (hb : b = "x" ∨ b = "z" ∧ 3 ≤ j) (hpos : 1 ≤ j) (hj : j + 1 < 6)
    (hd : (analysisOf depth g config).Derives p a (nodeAt 0 j) b) :
    (analysisOf depth g config).Derives p a (nodeAt 0 (j + 1)) b := by
  have hb' : b = "x" ∨ b = "z" := hb.imp_right And.left
  by_cases hcalls : callsAt depth 0 j
  · exact h.afterCall hb' hcalls hj hd (mem_image_chain hb' 0 2)
  · refine h.advance (Nat.zero_le depth) hj hcalls hd ?_
    match j, hpos with
    | 1, _ => rfl
    | 2, _ =>
      obtain rfl := hb.resolve_right fun h => absurd h.2 (by decide)
      simp [statementAt, flowOf, FlowFunction.image]
    | j + 3, _ => rfl

theorem Drawing.derives_zero :
    (analysisOf depth g config).Derives (procAt 0) zero (nodeAt 0 0) zero :=
  .seed (mem_seeds.2 ⟨rfl, rfl, rfl⟩) (h.procOf (Nat.zero_le depth) (lengthAt_pos 0))

theorem Drawing.derives_x (hpos : 1 ≤ j) (hj : j < 6) :
    (analysisOf depth g config).Derives "main" zero (nodeAt 0 j) "x" := by
  induction j, hpos using Nat.le_induction with
  | base =>
    exact h.advance (Nat.zero_le depth) (by decide : 1 < 6) (by simp [callsAt]) h.derives_zero
      (by simp [statementAt, flowOf, FlowFunction.image])
  | succ j hj' ih => exact h.onwards (.inl rfl) hj' hj (ih (Nat.lt_of_succ_lt hj))

theorem Drawing.derives_z (hpos : 3 ≤ j) (hj : j < 6) :
    (analysisOf depth g config).Derives "main" zero (nodeAt 0 j) "z" := by
  induction j, hpos using Nat.le_induction with
  | base =>
    exact h.advance (Nat.zero_le depth) (by decide : 3 < 6) (by simp [callsAt])
      (h.derives_x (j := 2) (by decide) (by decide))
      (by simp [statementAt, flowOf, FlowFunction.image])
  | succ j hj' ih => exact h.onwards (.inr ⟨rfl, hj'⟩) (by omega) hj (ih (Nat.lt_of_succ_lt hj))

theorem Drawing.derives_y (hdepth : 0 < depth) :
    (analysisOf depth g config).Derives "main" zero (nodeAt 0 5) "y" := by
  have h₄ : (analysisOf depth g config).Derives "main" zero (nodeAt 0 4) "y" :=
    h.afterCall (.inl rfl) ⟨hdepth, .inr ⟨rfl, rfl⟩⟩ (by decide)
      (h.derives_x (j := 3) (by decide) (by decide))
      (by simp [statementAt, flowOf, FlowFunction.image])
  exact h.advance (Nat.zero_le depth) (by decide : 5 < 6) (by simp [callsAt]) h₄ rfl

/-- The variable `x` enters every level of the chain. -/
theorem Drawing.derives_entry (hk : k < depth) :
    (analysisOf depth g config).Derives (procAt (k + 1)) "x" (nodeAt (k + 1) 0) "x" := by
  induction k with
  | zero => exact h.into ⟨hk, .inl rfl⟩ (by decide : 1 < 6) (h.derives_x (by decide) (by decide))
  | succ k ih =>
    have h₁ := h.advance (Nat.le_of_lt hk) (by decide : 1 < 4) (by simp [callsAt])
      (ih (Nat.lt_of_succ_lt hk)) (mem_image_chain (.inl rfl) k 0)
    exact h.into ⟨hk, .inl rfl⟩ (by decide : 1 < 4) h₁

/-- A fact is derived at every node. -/
theorem Drawing.exists_derives (hk : k ≤ depth) (hj : j < lengthAt k) :
    ∃ p a d, (analysisOf depth g config).Derives p a (nodeAt k j) d := by
  cases k with
  | zero =>
    rcases Nat.eq_zero_or_pos j with rfl | hpos
    · exact ⟨_, _, _, h.derives_zero⟩
    · exact ⟨_, _, _, h.derives_x hpos hj⟩
  | succ k =>
    have h₀ : (analysisOf depth g config).Derives _ "x" (nodeAt (k + 1) 0) "x" := h.derives_entry hk
    have h₂ := h.through (.inl rfl) hk h₀
    match j, hj with
    | 0, _ => exact ⟨_, _, _, h₀⟩
    | 1, _ =>
      exact ⟨_, _, _, h.advance hk (by decide : 1 < 4) (by simp [callsAt]) h₀
        (mem_image_chain (.inl rfl) k 0)⟩
    | 2, _ => exact ⟨_, _, _, h₂⟩
    | 3, _ =>
      exact ⟨_, _, _, h.advance hk (by decide : 3 < 4) (by simp [callsAt]) h₂
        (mem_image_chain (.inl rfl) k 2)⟩

end Facts

/-! ## Runs -/

/-- The places of the nodes of a program. -/
def cells (depth : Nat) : Finset ((_ : Nat) × Nat) :=
  (Finset.range (depth + 1)).sigma fun k => Finset.range (lengthAt k)

theorem mem_cells {depth : Nat} {x : (_ : Nat) × Nat} :
    x ∈ cells depth ↔ x.1 ≤ depth ∧ x.2 < lengthAt x.1 := by
  rw [cells, Finset.mem_sigma, Finset.mem_range, Finset.mem_range, Nat.lt_succ_iff]

theorem card_cells (depth : Nat) : (cells depth).card = 4 * depth + 6 := by
  rw [cells, Finset.card_sigma, Finset.sum_range_succ']
  simp [lengthAt, Nat.mul_comm]

section Runs

/-- The facts of the analysis. -/
def facts : Finset String := {zero, "x", "y", "z"}

theorem keeps_transfer {s t : String} (hs : s ∈ facts) (ht : t ∈ facts) :
    (FlowFunction.transfer s t).Keeps (· ∈ facts) := by
  intro d hd w hw
  have hw := (FlowFunction.mem_targets_iff_image _ d w).1 hw
  simp only [FlowFunction.image] at hw
  split_ifs at hw
  · rcases hw with rfl | rfl
    · exact hs
    · exact ht
  · cases hw
  · exact hw ▸ hd

/-- Statements are about facts of the analysis, whatever the name of the node. -/
theorem keeps_flowOf (depth : Nat) (n : String) :
    (flowOf (statements depth)[n]?).Keeps (· ∈ facts) := by
  induction depth with
  | zero =>
    rw [statements_zero, getElem?_insert_eq, getElem?_insert_eq]
    split_ifs
    · exact keeps_transfer (by decide) (by decide)
    · exact keeps_transfer (by decide) (by decide)
    · exact .identity _
  | succ d ih =>
    rw [statements_succ, getElem?_insert_eq, getElem?_insert_eq]
    split_ifs
    · exact keeps_transfer (by decide) (by decide)
    · exact keeps_transfer (by decide) (by decide)
    · exact ih

theorem confined (depth : Nat) (g : Supergraph) (config : Config) :
    (analysisOf depth g config).Confined (· ∈ facts) where
  zero := Finset.mem_insert_self zero _
  seeds x hx := by
    obtain ⟨-, hzero, -⟩ := mem_seeds.1 hx
    exact hzero ▸ Finset.mem_insert_self zero _
  normalFlow n _ := keeps_flowOf depth n
  callFlow _ _ := .identity _
  returnFlow _ _ _ _ := .identity _
  bypassFlow _ _ _ := fun _ _ _ ht => by cases ht
  summaryFlow _ _ f hf := by cases hf

/-- Affine maps respect the order. -/
theorem respects_affine (f : Affine) : Respects (Payload.apply f : Flat Int64 → Flat Int64) := by
  intro v w h
  change Flat.join w v = w at h
  show Flat.join (f.toMap.apply w) (f.toMap.apply v) = f.toMap.apply w
  have hbottom : f.toMap.apply .bottom = .bottom := rfl
  cases v <;> cases w <;> grind [Flat.join, NumberMap.apply]

variable {depth : Nat} {g : Supergraph} {config : Config} (h : Drawing depth g)

theorem monotone : (analysisOf depth g config).Monotone := fun e _ => e.respects respects_affine

include h

theorem Drawing.seedsAtStarts : (analysisOf depth g config).SeedsAtStarts := by
  rintro ⟨n, a, u⟩ hx
  obtain ⟨rfl, -, -⟩ := mem_seeds.1 hx
  exact h.isStart (Nat.zero_le depth) (lengthAt_pos 0)

theorem Drawing.shownAt_exit : (analysisOf depth g config).ShownAt (nodeAt 0 5) :=
  .inl (.inl (h.isExit (Nat.zero_le depth) (by decide : 5 < 6)))

theorem Drawing.shownAt_afterCall (hdepth : 0 < depth) :
    (analysisOf depth g config).ShownAt (nodeAt 0 2) := by
  refine .inl (.inr (.inr ⟨nodeAt 0 1, ?_, ?_⟩))
  · exact (h.succ_iff (Nat.zero_le depth) (by decide : 1 < 6)).2 ⟨by decide, rfl⟩
  · rw [h.isCallSite (Nat.zero_le depth) (by decide : 1 < 6)]
    exact congrArg Except.ok (decide_eq_true ⟨hdepth, .inl rfl⟩)

variable (hgc : config.gcMode = .disabled)

include hgc

theorem Drawing.comparable : Comparable (analysisOf depth g config) :=
  ⟨h.built.consistent, hgc, fun _ => h.seedsAtStarts, fun _ => Affine.lawfulLabels,
    fun _ => Affine.sharedPayloads⟩

theorem Drawing.setting : Setting (analysisOf depth g config) :=
  ⟨h.built.consistent, fun _ => h.seedsAtStarts, .inl hgc, fun _ => Affine.lawfulLabels⟩

theorem Drawing.bounded (hlimit : 2 ≤ config.joinLimit) :
    Bounded (analysisOf depth g config) facts where
  graph := h.built
  mode := hgc
  limit := hlimit
  seeds := h.seedsAtStarts
  confined := confined depth g config

/-- Without collection a run returns, unless there are more nodes than numbers. -/
theorem Drawing.solve_cases (hlimit : 2 ≤ config.joinLimit) :
    (∃ n, ∃ r : Results (Verbatim (Flat Int64)) String (Flat Int64),
      Solver.solve (analysisOf depth g config) (Verbatim (Flat Int64)) n = .ok r) ∨
    Solver.RunsOut (analysisOf depth g config) ∧ ¬ 4 * depth + 6 < UInt32.size := by
  have hbounded := h.bounded hgc hlimit
  have hcode : Solver.AllowsCode (Verbatim (Flat Int64)) (Flat Int64) fun _ => False :=
    fun _ _ _ h => by cases h
  have hnumbered (hids : 4 * depth + 6 < UInt32.size) :
      Numbered (analysisOf depth g config) facts := by
    refine ⟨by decide, Nat.lt_of_le_of_lt h.size_nodes_le hids, ?_⟩
    show g.procNames.length < UInt32.size
    rw [h.length_procNames]
    omega
  refine Or.imp_right (And.imp_right (mt hnumbered)) ?_
  cases hv : config.computeValues with
  | false => exact hbounded.solve_plain hcode hv
  | true =>
    exact hbounded.solve_valued hcode hv (.ofChains Flat.chainsWithin fun _ _ => rfl)
      respects_affine

/-- A run that returns has numbered every node. -/
theorem Drawing.ids_lt {n : Nat} {r : Results (Verbatim (Flat Int64)) String (Flat Int64)}
    (hsolve : Solver.solve (analysisOf depth g config) (Verbatim (Flat Int64)) n = .ok r) :
    4 * depth + 6 < UInt32.size := by
  obtain ⟨s, hends, -⟩ := Solver.exists_hasPath_iff (h.setting hgc).scope hsolve
  have hs := hends.complete (h.setting hgc).scope
  have hnumber : ∀ x : (_ : Nat) × Nat, ∃ i : NodeId, x.1 ≤ depth → x.2 < lengthAt x.1 →
      s.HasNode i (nodeAt x.1 x.2) := by
    rintro ⟨k, j⟩
    by_cases hkj : k ≤ depth ∧ j < lengthAt k
    · have hvisit : ∃ p a d, (analysisOf depth g config).Derives p a (nodeAt k j) d :=
        h.exists_derives hkj.1 hkj.2
      obtain ⟨p, a, d, hd⟩ := hvisit
      obtain ⟨i, _, _, _, hi, -⟩ := hs.hasPath_of_derives hd
      exact ⟨i, fun _ _ => hi⟩
    · exact ⟨⟨0⟩, fun hk hj => absurd ⟨hk, hj⟩ hkj⟩
  choose number hnumber using hnumber
  -- Different nodes have different numbers, so there are as many numbers as nodes.
  have hcard := Finset.card_le_card_of_injOn (s := cells depth)
    (t := Finset.range UInt32.size) (fun x => (number x).val.toNat)
    (fun x _ => Finset.mem_range.2 (UInt32.toNat_lt_size _)) fun x hx y hy hxy => by
      obtain ⟨hxk, hxj⟩ := mem_cells.1 hx
      obtain ⟨hyk, hyj⟩ := mem_cells.1 hy
      have hnode : some (nodeAt x.1 x.2) = some (nodeAt y.1 y.2) := calc
        some (nodeAt x.1 x.2) = s.nodes.get? (number x).val := (hnumber x hxk hxj).symm
        _ = s.nodes.get? (number y).val := congrArg s.nodes.get? (UInt32.toNat_inj.1 hxy)
        _ = some (nodeAt y.1 y.2) := hnumber y hyk hyj
      obtain ⟨hk, hj⟩ := nodeAt_inj.1 (Option.some.inj hnode)
      exact Sigma.ext hk (heq_of_eq hj)
  rw [card_cells, Finset.card_range] at hcard
  have hne : 4 * depth + 6 ≠ UInt32.size := by
    unfold UInt32.size
    omega
  omega

end Runs

/-! ## Values -/

/-- All labels in `main` begin at the zero fact. -/
theorem LabelAt.source_main {depth j : Nat} {a d : Fact} {f : EdgeFunction (Flat Int64) Affine}
    (h : LabelAt depth 0 j a d f) : a = .zero := by
  cases h <;> rfl

theorem label_main {depth j : Nat} {b : String} {v : Fact} {f : EdgeFunction (Flat Int64) Affine}
    (h : Label depth "main" b (nodeAt 0 j) v.name f) : LabelAt depth 0 j .zero v f := by
  obtain ⟨k, i, u, w, -, -, -, rfl, hn, hv, hf⟩ := h
  obtain ⟨rfl, rfl⟩ := nodeAt_inj.1 hn
  obtain rfl := Fact.name_inj.1 hv
  obtain rfl := hf.source_main
  exact hf

section Values

variable {depth : Nat} {g : Supergraph} {config : Config} (h : Drawing depth g)

include h

theorem Drawing.not_isStart {j : Nat} (hpos : 0 < j) (hj : j < 6) :
    g.isStart (nodeAt 0 j) ≠ .ok true := by
  rw [h.isStart (Nat.zero_le depth) hj, decide_eq_false (Nat.ne_of_gt hpos)]
  nofun

variable (hgc : config.gcMode = .disabled) (hvalues : config.computeValues = true)
  (htable : config.useSummaryTable = true) {steps : Nat}
  {r : Results (Verbatim (Flat Int64)) String (Flat Int64)}
  (hsolve : Solver.solve (analysisOf depth g config) (Verbatim (Flat Int64)) steps = .ok r)

include hgc hvalues htable hsolve

/-- A fact of `main` has the value of its label. -/
theorem Drawing.valueAt_main {j n : Nat} {v : Fact} (hpos : 0 < j) (hj : j < 6)
    (hd : (analysisOf depth g config).Derives "main" zero (nodeAt 0 j) v.name)
    (hlabel : LabelAt depth 0 j .zero v (constant n)) :
    r.valueAt (nodeAt 0 j) v.name = .value (Int64.ofNat n) := by
  refine (spelling h hvalues htable).valueAt_eq (h.setting hgc) monotone hsolve
    (h.procOf (Nat.zero_le depth) hj) (h.not_isStart hpos hj) hd fun b f u hf => ?_
  rw [(label_main hf).unique hlabel]
  rfl

/-- Without a chain nothing assigns to `y`. -/
theorem Drawing.valueAt_unassigned (hdepth : depth = 0) : r.valueAt (nodeAt 0 5) "y" = .top := by
  refine (spelling h hvalues htable).valueAt_eq_top (h.setting hgc) hsolve
    (h.procOf (Nat.zero_le depth) (by decide : 5 < 6)) (h.not_isStart (by decide) (by decide))
    fun b f hf => ?_
  have hlabel := label_main (v := .y) hf
  cases hlabel with
  | mainY _ hpos => omega

/-- What a run with values finds in `main`. -/
theorem Drawing.values_main :
    r.valueAt (nodeAt 0 5) "x" = .value (Int64.ofNat (1 + 2 * depth)) ∧
      r.valueAt (nodeAt 0 5) "z" = .value (Int64.ofNat (1 + depth)) ∧
      r.valueAt (nodeAt 0 5) "y" =
        (if depth = 0 then .top else .value (Int64.ofNat (3 * (1 + 2 * depth)))) ∧
      r.valueAt (nodeAt 0 2) "x" = .value (Int64.ofNat (1 + depth)) := by
  refine ⟨?_, ?_, ?_, ?_⟩
  · exact h.valueAt_main (v := .x) hgc hvalues htable hsolve (by decide) (by decide)
      (h.derives_x (by decide) (by decide)) (.mainX (by decide))
  · exact h.valueAt_main (v := .z) hgc hvalues htable hsolve (by decide) (by decide)
      (h.derives_z (by decide) (by decide)) (.mainZ (by decide))
  · split_ifs with hdepth
    · exact h.valueAt_unassigned hgc hvalues htable hsolve hdepth
    · have hpos := Nat.pos_of_ne_zero hdepth
      exact h.valueAt_main (v := .y) hgc hvalues htable hsolve (by decide) (by decide)
        (h.derives_y hpos) (.mainY (by decide) hpos)
  · have hlabel : LabelAt depth 0 2 .zero .x (constant (1 + 1 * depth)) := .mainX (by decide)
    rw [Nat.one_mul] at hlabel
    exact h.valueAt_main (v := .x) hgc hvalues htable hsolve (by decide) (by decide)
      (h.derives_x (by decide) (by decide)) hlabel

end Values

/-- At every depth, in every mode and order, a run that returns has found the constants of the
program: `x` grows by the depth with each call, `z` is `x` after the first call, and `y` is three
times `x` if there is a chain. Without values all of them are top. Given enough steps every run
returns, and always the same, at the depths that leave a number for each node; at the others every
run runs out of numbers. -/
theorem values_of_chain (o : Options) :
    ∃ A, analysis o.depth o.config = .ok A ∧
      (∀ n, ∀ r : Results (Verbatim (Flat Int64)) String (Flat Int64),
        Solver.solve A (Verbatim (Flat Int64)) n = .ok r →
        (o.ifds = false →
          r.valueAt (nodeName "main" 5) "x" = .value (Int64.ofNat (1 + 2 * o.depth)) ∧
          r.valueAt (nodeName "main" 5) "z" = .value (Int64.ofNat (1 + o.depth)) ∧
          r.valueAt (nodeName "main" 5) "y" =
            (if o.depth = 0 then .top else .value (Int64.ofNat (3 * (1 + 2 * o.depth)))) ∧
          (0 < o.depth →
            r.valueAt (nodeName "main" 2) "x" = .value (Int64.ofNat (1 + o.depth)))) ∧
        (o.ifds = true →
          r.valueAt (nodeName "main" 5) "x" = .top ∧ r.valueAt (nodeName "main" 5) "z" = .top ∧
          r.valueAt (nodeName "main" 5) "y" = .top ∧
          (0 < o.depth → r.valueAt (nodeName "main" 2) "x" = .top))) ∧
      ∃ N, if 4 * o.depth + 6 < UInt32.size
        then ∃ r, ∀ n, N ≤ n → Solver.solve A (Verbatim (Flat Int64)) n = .ok r
        else ∀ n, N ≤ n → Solver.solve A (Verbatim (Flat Int64)) n = .error .idsExhausted := by
  obtain ⟨g, hg, h⟩ := exists_graph o.depth
  refine ⟨analysisOf o.depth g o.config, bind_eq_ok.2 ⟨g, hg, rfl⟩, ?_⟩
  -- The run without collection, which the others agree with at the nodes in question.
  let config : Config := { o.config with gcMode := .disabled }
  have hgc : config.gcMode = .disabled := rfl
  obtain ⟨n, r, hr⟩ | ⟨hout, hids⟩ := h.solve_cases hgc (by decide : 2 ≤ 8)
  · obtain ⟨N, r', hN, hsame⟩ := Solver.exists_solve_valueAt (h.comparable hgc) o.gc hr
    refine ⟨fun n₁ r₁ h₁ => ?_, N, ?_⟩
    · obtain rfl : r₁ = r' := Except.ok.inj <|
        (Solver.solve_add h₁ N).symm.trans (hN (n₁ + N) (Nat.le_add_left N n₁))
      have hexit := fun d => hsame (nodeAt 0 5) d fun _ => h.shownAt_exit
      have hcall := fun d hdepth => hsame (nodeAt 0 2) d fun _ => h.shownAt_afterCall hdepth
      refine ⟨fun hifds => ?_, fun hifds => ?_⟩
      · have hvalues : config.computeValues = true := by simp [config, Options.config, hifds]
        obtain ⟨hx, hz, hy, hx₂⟩ := h.values_main hgc hvalues rfl hr
        exact ⟨(hexit "x").trans hx, (hexit "z").trans hz, (hexit "y").trans hy,
          fun hdepth => (hcall "x" hdepth).trans hx₂⟩
      · have hplain : config.computeValues = false := by simp [config, Options.config, hifds]
        have htop := Solver.valueAt_plain (h.setting hgc).scope hplain hr
        exact ⟨(hexit "x").trans (htop _ _), (hexit "z").trans (htop _ _),
          (hexit "y").trans (htop _ _), fun hdepth => (hcall "x" hdepth).trans (htop _ _)⟩
    · rw [if_pos (h.ids_lt hgc hr)]
      exact ⟨r', hN⟩
  · obtain ⟨N, hN⟩ := (hout.withGc (h.comparable hgc) o.gc).solve (Verbatim (Flat Int64))
    refine ⟨fun n₁ r₁ h₁ => ?_, N, ?_⟩
    · exact absurd ((Solver.solve_add h₁ N).symm.trans (hN (n₁ + N) (Nat.le_add_left N n₁)))
        (by simp)
    · rw [if_neg hids]
      exact hN

/-- Two levels, with the strongest kind of collection. -/
theorem values_of_chain_two :
    ∃ A, analysis 2 { gcMode := .aggressive, queueOrder := .fifo } = .ok A ∧
      ∃ N, ∃ r : Results (Verbatim (Flat Int64)) String (Flat Int64),
        (∀ n, N ≤ n → Solver.solve A (Verbatim (Flat Int64)) n = .ok r) ∧
        r.valueAt (nodeName "main" 5) "x" = .value 5 ∧
        r.valueAt (nodeName "main" 5) "z" = .value 3 ∧
        r.valueAt (nodeName "main" 5) "y" = .value 15 ∧
        r.valueAt (nodeName "main" 2) "x" = .value 3 := by
  obtain ⟨A, hA, hvalues, N, hN⟩ := values_of_chain ⟨2, .aggressive, true, false, false, .info⟩
  rw [if_pos (by decide)] at hN
  obtain ⟨r, hN⟩ := hN
  obtain ⟨hx, hz, hy, hx₂⟩ := (hvalues N r (hN N (Nat.le_refl N))).1 rfl
  exact ⟨A, hA, N, r, hN, hx, hz, hy, hx₂ (by decide)⟩

end CallChain

end Tabulation
