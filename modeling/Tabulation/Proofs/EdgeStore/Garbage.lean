import Tabulation.Proofs.EdgeStore.Representation

/-!
# Sweeping frees exactly the garbage

A handle is *reached* if some root leads to it through operands. In a store that its operations
built, a sweep with live roots empties the slots of all live nodes that are neither reached nor
reserved, and no other ones. With a root that is not alive it is a fault and empties nothing.

**Marking.** `mark` follows the operands from every root. What it marks is closed under operands, so
it holds whatever is reached, and it only ever goes on from what is reached: the two agree,
`mem_of_mark`.

**Faults.** `sweepProgram` is a sweep as a program on a store that outlives a fault. It does the
same as `sweep`, `run_sweepProgram`, and shows what the store is like when a root turns out not to
be alive.

Main result: `sweep_exact`.
-/

namespace Tabulation

namespace EdgeStore

variable {L K : Type} [Ord L] [Ord K]

/-- Some root leads to the handle through operands. -/
def Reached (s : EdgeStore L K) (roots : List EdgeRef) (ef : EdgeRef) : Prop :=
  ∃ root ∈ roots, Relation.ReflTransGen s.Operand ef root

variable {s s' : EdgeStore L K} {roots : List EdgeRef} {ef : EdgeRef}

theorem Reached.operand (h : s.Reached roots ef) {p : EdgeRef} (hp : s.Operand p ef) :
    s.Reached roots p := by
  obtain ⟨root, hroot, hpath⟩ := h
  exact ⟨root, hroot, .head hp hpath⟩

theorem reached_of_mem (h : ef ∈ roots) : s.Reached roots ef := ⟨ef, h, .refl⟩

/-! ## Marking -/

/-- Marking goes on only from what a set that is closed under operands holds. -/
theorem markTo_sound {P : EdgeRef → Prop} (hP : ∀ ef p, P ef → s.Operand p ef → P p) {n : Nat}
    {marked marked' : BitSet} (hmarked : ∀ i ∈ marked, P ⟨i⟩) (hef : P ef)
    (h : s.markTo n marked ef = .ok marked') : ∀ i ∈ marked', P ⟨i⟩ := by
  induction n generalizing marked marked' ef with
  | zero => cases h
  | succ n ih =>
    rw [markTo] at h
    split at h
    · obtain rfl := Except.ok.inj h
      exact hmarked
    · rw [bind_eq_ok] at h
      obtain ⟨node, hnode, h⟩ := h
      rw [bind_eq_ok] at h
      obtain ⟨m, hfold, h⟩ := h
      rw [pure_eq_ok] at h
      have hm : ∀ i ∈ m, P ⟨i⟩ :=
        foldlM_ok (fun _ m => ∀ i ∈ m, P ⟨i⟩) hfold hmarked fun _ p c c' hp hc hstep =>
          ih hc (hP ef p hef ⟨node, node_eq_ok.1 hnode, hp⟩) hstep
      intro i hi
      rw [← h, BitSet.mem_insert] at hi
      rcases hi with rfl | hi
      · exact hef
      · exact hm i hi

/-- Exactly what is reached is marked. -/
theorem mem_of_mark {marked : BitSet} (h : s.mark roots = .ok marked) :
    ef.index ∈ marked ↔ s.Reached roots ef := by
  constructor
  · intro hmem
    refine foldlM_ok (fun _ m => ∀ i ∈ m, s.Reached roots ⟨i⟩) h
      (fun i hi => absurd hi (BitSet.not_mem_ofCapacity _ i)) ?_ ef.index hmem
    intro _ root m m' hroot hm hstep
    exact markTo_sound (fun _ _ hq hp => hq.operand hp) hm
      (reached_of_mem (List.mem_reverse.1 hroot)) hstep
  · obtain ⟨hclosed, hroots⟩ := mark_spec h
    rintro ⟨root, hroot, hpath⟩
    induction hpath using Relation.ReflTransGen.head_induction_on with
    | refl => exact hroots root hroot
    | head hop _ ih =>
      obtain ⟨node, hn, hp⟩ := hop
      obtain ⟨node', hn', hops⟩ := hclosed _ ih
      obtain rfl := Option.some.inj (hn'.symm.trans hn)
      exact hops _ hp

/-- The live handles that are neither reserved nor reached. -/
def garbage (s : EdgeStore L K) (roots : List EdgeRef) : Set EdgeRef :=
  {ef | s.Alive ef ∧ ef.isReserved = false ∧ ¬ s.Reached roots ef}

/-- The garbage are the nodes in slots that are not marked. -/
theorem mem_garbage {marked : BitSet} (hmark : s.forget.mark roots = .ok marked) :
    ef ∈ s.garbage roots ↔ s.Alive ef ∧ ef.index ∈ s.forget.unmarked marked := by
  have hreached : ef.index ∈ marked ↔ s.Reached roots ef := mem_of_mark (s := s.forget) hmark
  rw [mem_unmarked, hreached]
  refine and_congr_right fun halive => ?_
  obtain ⟨slot, hslot⟩ := halive.slot
  have hlt : ef.index < s.forget.slots.size := (Array.getElem?_eq_some_iff.1 hslot).1
  have hreserved : ef.isReserved = false ↔ 3 ≤ ef.index := by
    rw [EdgeRef.isReserved, decide_eq_false_iff_not, Nat.not_lt]
    rfl
  simp only [hreserved, hlt, true_and]

/-- What is reached from kept handles is kept. -/
theorem Keeps.reached {freed : Nat → Prop} (hk : Keeps freed s s')
    (hroots : ∀ root ∈ roots, ¬ freed root.index) (hef : s.Reached roots ef) :
    ¬ freed ef.index := by
  obtain ⟨root, hroot, hpath⟩ := hef
  induction hpath using Relation.ReflTransGen.head_induction_on with
  | refl => exact hroots root hroot
  | head hop _ ih =>
    obtain ⟨node, hn, hp⟩ := hop
    exact hk.operands _ node ih hn _ hp

/-! ## Counting -/

variable [Payload K L]

theorem slot?_freeSlot (s : EdgeStore L K) {i : Nat} (hne : ef.index ≠ i) :
    (s.freeSlot i).slot? ef = s.slot? ef := by
  unfold freeSlot
  split
  · simp [slot?, Ne.symm hne]
  · rfl

theorem size_freeAll (s : EdgeStore L K) (is : List Nat) :
    (is.foldl freeSlot s).slots.size = s.slots.size := by
  induction is generalizing s with
  | nil => rfl
  | cons i is ih =>
    rw [List.foldl_cons, ih]
    unfold freeSlot
    split
    · simp
    · rfl

/-- The slots that were not empty are counted. -/
theorem swept_freeAll (s : EdgeStore L K) {is : List Nat} (hnodup : is.Nodup) :
    (is.foldl freeSlot s).swept =
      s.swept + (is.filter fun i => (s.slot? ⟨i⟩).isSome).length := by
  induction is generalizing s with
  | nil => rfl
  | cons i is ih =>
    obtain ⟨hi, hnodup⟩ := List.nodup_cons.1 hnodup
    have hrest : (is.filter fun j => ((s.freeSlot i).slot? ⟨j⟩).isSome) =
        is.filter fun j => (s.slot? ⟨j⟩).isSome := by
      refine List.filter_congr fun j hj => ?_
      have hne : j ≠ i := fun he => hi (he ▸ hj)
      rw [slot?_freeSlot s hne]
    rw [List.foldl_cons, ih (s.freeSlot i) hnodup, hrest, List.filter_cons]
    unfold freeSlot
    cases hslot : s.slot? ⟨i⟩ with
    | none => rfl
    | some slot =>
      simp only [Option.isSome_some, if_true, List.length_cons]
      omega

/-! ## Faults -/

/-- Empties the slots that are not marked, one after another, and tells how many were not empty. -/
def freeProgram (marked : BitSet) : ExceptT Fault (StateM (EdgeStore L K)) Nat := do
  let before ← get
  (before.unmarked marked).forM fun i => modify fun s => s.freeSlot i
  return (← get).swept - before.swept

/-- Sweeping as a program on a store that outlives a fault. What is remembered is forgotten, the
roots are marked, which may be a fault, and only then slots are emptied. -/
def sweepProgram (roots : List EdgeRef) : ExceptT Fault (StateM (EdgeStore L K)) Nat := do
  modify forget
  freeProgram (← MonadExcept.ofExcept ((← get).mark roots))

theorem run_forM_modify {σ α : Type} (f : σ → α → σ) (l : List α) (s : σ) :
    ((l.forM fun a => modify fun s => f s a : ExceptT Fault (StateM σ) PUnit).run).run s =
      (.ok ⟨⟩, l.foldl f s) := by
  induction l generalizing s with
  | nil => rfl
  | cons a l ih => exact ih (f s a)

theorem run_freeProgram (s : EdgeStore L K) (marked : BitSet) :
    ((freeProgram marked).run).run s =
      (.ok (((s.unmarked marked).foldl freeSlot s).swept - s.swept),
        (s.unmarked marked).foldl freeSlot s) := by
  have hloop := run_forM_modify freeSlot (s.unmarked marked) s
  have hrun : ((freeProgram marked).run).run s =
      ((((s.unmarked marked).forM fun i => modify fun s => s.freeSlot i) >>= fun _ => do
        return (← get).swept - s.swept :
          ExceptT Fault (StateM (EdgeStore L K)) Nat).run).run s := rfl
  rw [hrun, ExceptT.run_bind, StateT.run_bind, hloop]
  rfl

/-- The program sweeps. After a fault, all slots are as they were. -/
theorem run_sweepProgram (s : EdgeStore L K) (roots : List EdgeRef) :
    ((sweepProgram roots).run).run s =
      match s.sweep roots with
      | .ok (n, s') => (.ok n, s')
      | .error fault => (.error fault, s.forget) := by
  have hrun : ((sweepProgram roots).run).run s =
      ((MonadExcept.ofExcept (s.forget.mark roots) >>= freeProgram :
        ExceptT Fault (StateM (EdgeStore L K)) Nat).run).run s.forget := rfl
  rw [hrun, sweep]
  cases hmark : s.forget.mark roots with
  | error fault => rfl
  | ok marked => exact run_freeProgram s.forget marked

theorem sweep_eq_ok {n : Nat} (h : s.sweep roots = .ok (n, s')) :
    ∃ marked, s.forget.mark roots = .ok marked ∧
      s' = (s.forget.unmarked marked).foldl freeSlot s.forget ∧ n = s'.swept - s.swept := by
  rw [sweep, bind_eq_ok] at h
  obtain ⟨marked, hmark, h⟩ := h
  obtain ⟨rfl, rfl⟩ := Prod.mk.inj (pure_eq_ok.1 h)
  exact ⟨marked, hmark, rfl, rfl⟩

/-! ## Sweeping -/

variable [JoinLattice L] [DecidableEq L]

/-- The roots are marked from the last one on, and the last that is not alive is the fault. -/
theorem Regular.mark_fault (h : Regular s) {before after : List EdgeRef} (hef : ¬ s.Alive ef)
    (hafter : ∀ p ∈ after, s.Alive p) :
    s.mark (before ++ ef :: after) = .error (.notAlive ef.index) := by
  obtain ⟨marked, hmarked, hclosed⟩ := foldlM_total (Closed s)
    (f := fun marked ef => s.markTo (s.height ef + 1) marked ef) (l := after.reverse)
    (fun i hi => absurd hi (BitSet.not_mem_ofCapacity s.slots.size i)) fun p hp m hm => by
      have hwithin := h.within (hafter p (List.mem_reverse.1 hp)) (Nat.lt_succ_self _)
      obtain ⟨m', hm'⟩ := markTo_total hwithin m
      exact ⟨m', hm', (markTo_spec hm hm').1⟩
  have hnone : s.node? ef = none :=
    Option.eq_none_iff_forall_ne_some.2 fun node hn => hef ⟨node, hn⟩
  have hfault : s.markTo (s.height ef + 1) marked ef = .error (.notAlive ef.index) := by
    have hmem : ¬ marked.contains ef.index = true := fun hmem => by
      obtain ⟨node, hn, -⟩ := hclosed ef.index hmem
      exact hef ⟨node, hn⟩
    rw [markTo, if_neg hmem, EdgeStore.node, hnone]
    rfl
  rw [mark, List.reverse_append, List.reverse_cons, List.append_assoc, List.foldlM_append, hmarked,
    ok_bind, List.singleton_append, List.foldlM_cons, hfault]
  rfl

theorem Regular.alive_of_reached (h : Regular s) (halive : ∀ root ∈ roots, s.Alive root)
    (hef : s.Reached roots ef) : s.Alive ef := by
  obtain ⟨root, hroot, hpath⟩ := hef
  rcases hpath.cases_head with rfl | ⟨q, ⟨node, hn, hp⟩, -⟩
  · exact halive ef hroot
  · exact h.operands hn hp

variable [Std.TransOrd L] [Std.LawfulEqOrd L] [Std.TransOrd K] [Std.LawfulEqOrd K]

/-- Sweeping empties the slots of the garbage and leaves all others as they are. -/
theorem Regular.node?_of_sweep (h : Regular s) {n : Nat} (hs : s.sweep roots = .ok (n, s')) :
    (ef ∈ s.garbage roots → s'.node? ef = none) ∧
      (ef ∉ s.garbage roots → s'.node? ef = s.node? ef) := by
  obtain ⟨marked, hmark, rfl, -⟩ := sweep_eq_ok hs
  obtain ⟨-, hnode⟩ := freeAll_spec h.forget.placed (s.forget.unmarked marked)
  rw [mem_garbage hmark, hnode]
  refine ⟨fun hgarbage => if_pos hgarbage.2, fun hkept => ?_⟩
  split
  · next hfreed =>
    -- The slot was empty before.
    exact (Option.eq_none_iff_forall_ne_some.2 fun node hn => hkept ⟨⟨node, hn⟩, hfreed⟩).symm
  · rfl

/-- The garbage is counted, and the store is smaller by it. -/
theorem Regular.size_of_sweep (h : Regular s) {n : Nat} (hs : s.sweep roots = .ok (n, s')) :
    (s.garbage roots).encard = n ∧ s'.size + n = s.size := by
  obtain ⟨h', -⟩ := h.of_sweep hs
  obtain ⟨marked, hmark, heq, hn⟩ := sweep_eq_ok hs
  have hnodup : (s.forget.unmarked marked).Nodup :=
    ((List.nodup_range.sublist (List.drop_sublist _ _)).filter _)
  have hswept := swept_freeAll s.forget hnodup
  have hsize := size_freeAll s.forget (s.forget.unmarked marked)
  have hinterned := (freeAll_frame s.forget (s.forget.unmarked marked)).2.1
  rw [← heq] at hswept hsize hinterned
  set freed := (s.forget.unmarked marked).filter fun i => (s.forget.slot? ⟨i⟩).isSome with hfreed
  have hcount : n = freed.length := by
    rw [hn, hswept]
    exact Nat.add_sub_cancel_left ..
  constructor
  · have hinj : Function.Injective EdgeRef.mk := fun i j hij => congrArg EdgeRef.index hij
    have hset : s.garbage roots = ((freed.map EdgeRef.mk).toFinset : Set EdgeRef) := by
      ext ef
      rw [mem_garbage hmark, List.coe_toFinset]
      simp only [hfreed, Set.mem_ofPred_eq, List.mem_map, List.mem_filter]
      constructor
      · rintro ⟨⟨node, hnode⟩, hmem⟩
        refine ⟨ef.index, ⟨hmem, ?_⟩, rfl⟩
        exact Option.isSome_iff_exists.2 ((Option.map_eq_some_iff.1 hnode).imp fun _ h => h.1)
      · rintro ⟨i, ⟨hmem, hsome⟩, rfl⟩
        obtain ⟨slot, hslot⟩ := Option.isSome_iff_exists.1 hsome
        exact ⟨⟨slot.node, congrArg (Option.map Slot.node) hslot⟩, hmem⟩
    rw [hset, Set.encard_coe_eq_coe_finsetCard, hcount,
      List.toFinset_card_of_nodup ((hnodup.filter _).map hinj), List.length_map]
  · have hbefore := h.count
    have hafter := h'.count
    have hfree := h.length_free_le
    have hfree' := h'.length_free_le
    have hs₁ : s.forget.swept = s.swept := rfl
    have hs₂ : s.forget.slots.size = s.slots.size := rfl
    have hs₃ : s.forget.interned = s.interned := rfl
    unfold size
    omega

/-- What is reached evaluates as before. -/
theorem Regular.eval_of_sweep (h : Regular s) {n : Nat} (hs : s.sweep roots = .ok (n, s'))
    (halive : s.Alive ef) (hef : s.Reached roots ef) (v : L) :
    ∃ r, s.eval ef v = .ok r ∧ s'.eval ef v = .ok r := by
  obtain ⟨h', freed, hkeeps, hroots⟩ := h.of_sweep hs
  obtain ⟨φ, hφ⟩ := h.means halive
  exact ⟨φ v, h.eval hφ v, h'.eval (hkeeps.means hφ (hkeeps.reached hroots hef)) v⟩

/-- A list of which not all members satisfy a predicate has a last one that does not. -/
theorem exists_last {α : Type} {P : α → Prop} {l : List α} (h : ∃ a ∈ l, ¬ P a) :
    ∃ before a after, l = before ++ a :: after ∧ ¬ P a ∧ ∀ b ∈ after, P b := by
  induction l with
  | nil => simp at h
  | cons a l ih =>
    by_cases hl : ∃ b ∈ l, ¬ P b
    · obtain ⟨before, b, after, rfl, hb, hafter⟩ := ih hl
      exact ⟨a :: before, b, after, rfl, hb, hafter⟩
    · have hall : ∀ b ∈ l, P b := fun b hb => not_not.1 fun hnot => hl ⟨b, hb, hnot⟩
      obtain ⟨b, hb, hnot⟩ := h
      rcases List.mem_cons.1 hb with rfl | hb
      · exact ⟨[], b, l, rfl, hnot, hall⟩
      · exact absurd (hall b hb) hnot

/-- **Sweeping is exact.** With live roots, a sweep empties the slots of the garbage and no others,
tells how many there were, and makes the store smaller by that. What the roots reach evaluates as
before, and a canonical node that is left is still found under its handle. Otherwise, the last root
that is not alive is a fault, and the fault leaves all slots as they were. -/
theorem sweep_exact (limit : Nat) (ops : List (Op L K)) (s : EdgeStore L K)
    (hs : build limit ops = .ok s) (roots : List EdgeRef) :
    ((∀ ef ∈ roots, s.Alive ef) → ∃ n s', s.sweep roots = .ok (n, s') ∧
      (∀ ef ∈ s.garbage roots, s'.node? ef = none) ∧
      (∀ ef ∉ s.garbage roots, s'.node? ef = s.node? ef) ∧
      (s.garbage roots).encard = n ∧ s'.size + n = s.size ∧
      (∀ ef, s.Reached roots ef → ∀ v, ∃ r, s.eval ef v = .ok r ∧ s'.eval ef v = .ok r) ∧
      ∀ ef node, s'.node? ef = some node → (kind? node).isSome → s'.intern node = (ef, s')) ∧
    ((∃ ef ∈ roots, ¬ s.Alive ef) → ∃ before ef after t,
      roots = before ++ ef :: after ∧ ¬ s.Alive ef ∧ (∀ p ∈ after, s.Alive p) ∧
      s.sweep roots = .error (.notAlive ef.index) ∧
      ((sweepProgram roots).run).run s = (.error (.notAlive ef.index), t) ∧ t.slots = s.slots) := by
  obtain ⟨h, -⟩ := regular_of_build hs
  constructor
  · intro halive
    obtain ⟨n, s', hsweep, h', -⟩ := h.sweep halive
    obtain ⟨hcount, hsize⟩ := h.size_of_sweep hsweep
    exact ⟨n, s', hsweep, fun ef => (h.node?_of_sweep hsweep).1,
      fun ef => (h.node?_of_sweep hsweep).2, hcount, hsize,
      fun ef hef => h.eval_of_sweep hsweep (h.alive_of_reached halive hef) hef,
      fun ef node hn hk => h'.intern_eq hk hn⟩
  · intro hdead
    obtain ⟨before, ef, after, rfl, hef, hafter⟩ := exists_last hdead
    have hfault : s.sweep (before ++ ef :: after) = .error (.notAlive ef.index) := by
      rw [sweep]
      simp only [h.forget.mark_fault hef hafter]
      rfl
    refine ⟨before, ef, after, s.forget, rfl, hef, hafter, hfault, ?_, rfl⟩
    rw [run_sweepProgram, hfault]

/-- A composition of two shifts joined with a constant, and a third shift. -/
def littered : List (Op Mask MaskMap) :=
  [.leaf (.custom (.shiftLeft 1)), .leaf (.custom (.shiftLeft 2)), .leaf (.constant ⟨7⟩),
    .compose ⟨3⟩ ⟨4⟩, .join ⟨5⟩ ⟨6⟩, .leaf (.custom (.shiftLeft 3))]

/-- From the join all is reached but the third shift and the constant, which went into the seed.
With the third shift swept, it is a fault to sweep from it. -/
theorem sweep_exact_littered :
    ∃ s s' u t, build 2 littered = .ok s ∧ s.sweep [⟨7⟩] = .ok (2, s') ∧
      (s.garbage [⟨7⟩]).encard = 2 ∧ s'.intern (.compose ⟨3⟩ ⟨4⟩) = (⟨6⟩, s') ∧
      build 2 (littered ++ [Op.sweep [⟨7⟩]]) = .ok u ∧ u.Alive ⟨7⟩ ∧ ¬ u.Alive ⟨8⟩ ∧
      ((sweepProgram [⟨3⟩, ⟨8⟩, ⟨7⟩]).run).run u = (.error (.notAlive 8), t) ∧
      t.slots = u.slots := by
  have hrun : (do
      let s ← build 2 littered
      let r ← s.sweep [⟨7⟩]
      let u ← build 2 (littered ++ [Op.sweep [⟨7⟩]])
      return (s.node? ⟨7⟩, r.1, r.2.node? ⟨6⟩, u.node? ⟨7⟩, u.node? ⟨8⟩)) =
      .ok (some (.join ⟨7⟩ [⟨6⟩]), 2, some (.compose ⟨3⟩ ⟨4⟩), some (.join ⟨7⟩ [⟨6⟩]), none) := by
    set_option synthInstance.maxSize 1024 in
    decide +kernel
  simp only [bind_eq_ok, pure_eq_ok, Prod.mk.injEq] at hrun
  obtain ⟨s, hs, ⟨n, s'⟩, hsweep, u, hu, h₇, rfl, h₆, hu₇, hu₈⟩ := hrun
  obtain ⟨n, t, ht, -, -, hcount, -, -, hintern⟩ := (sweep_exact 2 littered s hs [⟨7⟩]).1 (by
    intro ef hef
    rw [List.mem_singleton.1 hef]
    exact ⟨_, h₇⟩)
  obtain ⟨rfl, rfl⟩ := Prod.mk.inj (Except.ok.inj (hsweep.symm.trans ht))
  have hdead : ¬ u.Alive ⟨8⟩ := by
    rintro ⟨node, hn⟩
    cases hu₈.symm.trans hn
  obtain ⟨before, ef, after, t, hroots, hef, hafter, -, hfault, hslots⟩ :=
    (sweep_exact 2 _ u hu [⟨3⟩, ⟨8⟩, ⟨7⟩]).2 ⟨⟨8⟩, by simp, hdead⟩
  -- Only the second root is not alive.
  obtain rfl : ef = ⟨8⟩ := by
    rcases before with - | ⟨a, - | ⟨b, before⟩⟩
    · obtain ⟨rfl, rfl⟩ := List.cons.inj hroots
      exact absurd (hafter ⟨8⟩ (by simp)) hdead
    · simp only [List.cons_append, List.nil_append, List.cons.injEq] at hroots
      exact hroots.2.1.symm
    · have hlast : ef = ⟨7⟩ := by
        cases before <;> simp_all
      exact absurd ⟨_, hu₇⟩ (hlast ▸ hef)
  exact ⟨s, s', u, t, hs, hsweep, hcount, hintern _ _ h₆ rfl, hu, ⟨_, hu₇⟩, hdead, hfault, hslots⟩

end EdgeStore

end Tabulation
