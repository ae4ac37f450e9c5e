import Tabulation.Proofs.Program
import Tabulation.Proofs.Tables
import Tabulation.Retention

/-!
# Which procedures are collected

Retaining and releasing a procedure changes its count and nothing else.

**Pruning.** `PrunesTo` describes the loop that takes procedures out of the idle ones, without a
bound on its steps. It always ends, since every procedure puts its callers on the stack at most
once. What it takes out is what the stack leads to, and what is left is closed: `PrunesTo.closed`
and `PrunesTo.awaited`.

**Collectable procedures.** `collectable_spec` is what collecting needs: a collectable procedure is
a candidate without pending work, and so is every candidate that it calls. `collectable_exact` says
which procedures are collectable: the idle candidates that no chain of callers leads to from a
candidate with pending work.
-/

namespace Tabulation

/-! ## Counts -/

namespace Retention

variable {r r' : Retention} {p q : ProcId}

theorem countAt_retain {i : Nat} :
    (r.retain p).countAt i = if p.index = i then r.countAt i + 1 else r.countAt i := by
  have hsize : p.index < (r.counts ++ Array.replicate (p.index + 1 - r.counts.size) 0).size := by
    simp
    omega
  have hgrown : ∀ i : Nat,
      ((r.counts ++ Array.replicate (p.index + 1 - r.counts.size) 0)[i]?).getD 0 =
        (r.counts[i]?).getD 0 := by
    intro i
    rw [Array.getElem?_append, Array.getElem?_replicate]
    split
    · rfl
    · rw [Array.getElem?_eq_none (by omega)]
      split <;> rfl
  simp only [retain, countAt, Array.getD_eq_getD_getElem?, Array.getElem?_modify]
  split
  · next h =>
    subst h
    rw [← hgrown, Array.getElem?_eq_getElem hsize]
    rfl
  · exact hgrown _

theorem count_retain : (r.retain p).count q = if p = q then r.count q + 1 else r.count q := by
  simp only [count, countAt_retain, ProcId.index_inj]

theorem mem_candidates_retain {i : Nat} :
    i ∈ (r.retain p).candidates ↔ i = p.index ∨ i ∈ r.candidates := BitSet.mem_insert

theorem release_countAt (h : r.release p = .ok r') :
    r'.candidates = r.candidates ∧ 0 < r.count p ∧
      ∀ i, r'.countAt i = if p.index = i then r.countAt i - 1 else r.countAt i := by
  unfold release at h
  split at h
  · cases h
  · next hpos =>
    obtain rfl := Except.ok.inj h
    refine ⟨rfl, Nat.pos_of_ne_zero hpos, fun i => ?_⟩
    simp only [countAt, Array.getD_eq_getD_getElem?, Array.getElem?_modify]
    split
    · cases r.counts[i]? <;> simp
    · rfl

theorem release_spec (h : r.release p = .ok r') :
    r'.candidates = r.candidates ∧ 0 < r.count p ∧
      ∀ q, r'.count q = if p = q then r.count q - 1 else r.count q := by
  obtain ⟨hcand, hpos, hcount⟩ := release_countAt h
  refine ⟨hcand, hpos, fun q => ?_⟩
  simp only [count, hcount, ProcId.index_inj]

/-- A procedure with pending work can be released. -/
theorem release_total (h : 0 < r.count p) : ∃ r', r.release p = .ok r' := by
  unfold release
  rw [if_neg (Nat.ne_of_gt h)]
  exact ⟨_, rfl⟩

theorem allReleased_iff : r.allReleased = true ↔ ∀ i, r.countAt i = 0 := by
  unfold allReleased countAt
  rw [Array.all_eq_true]
  constructor
  · intro h i
    by_cases hi : i < r.counts.size
    · have := h i hi
      simpa [Array.getD, hi] using this
    · simp [Array.getD, hi]
  · intro h i hi
    have := h i
    simpa [Array.getD, hi] using this

/-! ## The steps of pruning -/

theorem procAt_index (p : ProcId) : procAt p.index = p := by
  cases p
  simp [procAt, ProcId.index]

/-- How many callers the idle procedures at some positions have. -/
def load (callers : ProcId → List ProcId) (is : List Nat) (idle : BitSet) : Nat :=
  (is.map fun i => if idle.contains i then (callers (procAt i)).length else 0).sum

theorem contains_erase (idle : BitSet) (x i : Nat) :
    (idle.erase x).2.contains i = true ↔ i ≠ x ∧ idle.contains i = true := BitSet.mem_erase

theorem load_erase_le (callers : ProcId → List ProcId) (is : List Nat) (idle : BitSet) (x : Nat) :
    load callers is (idle.erase x).2 ≤ load callers is idle := by
  induction is with
  | nil => exact Nat.le_refl _
  | cons i is ih =>
    simp only [load, List.map_cons, List.sum_cons, contains_erase] at ih ⊢
    refine Nat.add_le_add ?_ ih
    by_cases hi : i ≠ x ∧ idle.contains i = true
    · exact Nat.le_of_eq (by rw [if_pos hi, if_pos hi.2])
    · rw [if_neg hi]
      exact Nat.zero_le _

/-- Taking an idle procedure out makes room for its callers. -/
theorem load_erase {callers : ProcId → List ProcId} {is : List Nat} {idle : BitSet} {x : Nat}
    (hx : x ∈ is) (hidle : x ∈ idle) :
    load callers is (idle.erase x).2 + (callers (procAt x)).length ≤ load callers is idle := by
  induction is with
  | nil => cases hx
  | cons i is ih =>
    have hle := load_erase_le callers is idle x
    simp only [load, List.map_cons, List.sum_cons, contains_erase] at ih hle ⊢
    by_cases hi : i = x
    · subst hi
      rw [if_neg (fun h => h.1 rfl), if_pos (BitSet.mem_iff.1 hidle)]
      omega
    · have ih := ih ((List.mem_cons.1 hx).resolve_left (Ne.symm hi))
      have hsame : (i ≠ x ∧ idle.contains i = true) ↔ idle.contains i = true :=
        ⟨fun h => h.2, fun h => ⟨hi, h⟩⟩
      simp only [hsame]
      omega

/-! ## Pruning -/

/-- The loop over the stack ends, and leaves `left` of the idle procedures. -/
inductive PrunesTo (callers : ProcId → List ProcId) : List ProcId → BitSet → BitSet → Prop
  | done {idle : BitSet} : PrunesTo callers [] idle idle
  | takeOut {p : ProcId} {stack : List ProcId} {idle rest left : BitSet} :
      idle.erase p.index = (true, rest) → PrunesTo callers (callers p ++ stack) rest left →
      PrunesTo callers (p :: stack) idle left
  | skip {p : ProcId} {stack : List ProcId} {idle rest left : BitSet} :
      idle.erase p.index = (false, rest) → PrunesTo callers stack rest left →
      PrunesTo callers (p :: stack) idle left

/-- With steps for the stack and for the callers of all idle procedures, the loop ends. -/
theorem prune_prunesTo {callers : ProcId → List ProcId} {is : List Nat} {n : Nat}
    {stack : List ProcId} {idle : BitSet} (his : ∀ i ∈ idle, i ∈ is)
    (hn : stack.length + load callers is idle ≤ n) :
    PrunesTo callers stack idle (prune callers n stack idle) := by
  induction n generalizing stack idle with
  | zero =>
    have hstack : stack = [] := List.length_eq_zero_iff.1 (by omega)
    subst hstack
    exact .done
  | succ n ih =>
    cases stack with
    | nil => exact .done
    | cons p stack =>
      rw [List.length_cons] at hn
      have hfst := BitSet.erase_fst idle p.index
      have hsub : ∀ i ∈ (idle.erase p.index).2, i ∈ is :=
        fun i hi => his i (BitSet.mem_erase.1 hi).2
      have hle := load_erase_le callers is idle p.index
      have hload := @load_erase callers is idle p.index
      unfold prune
      split
      · next rest herase =>
        rw [herase] at hfst hsub hload
        have hp : p.index ∈ idle := hfst.symm
        have hload : load callers is rest + (callers (procAt p.index)).length ≤
          load callers is idle := hload (his _ hp) hp
        rw [procAt_index] at hload
        exact .takeOut herase (ih hsub (by rw [List.length_append]; omega))
      · next rest herase =>
        rw [herase] at hsub
        have hle : load callers is rest ≤ load callers is idle := by rwa [herase] at hle
        exact .skip herase (ih hsub (by omega))

section Loop

variable {callers : ProcId → List ProcId} {stack : List ProcId} {idle left : BitSet}

theorem mem_of_erase {p : ProcId} {flag : Bool} {rest : BitSet}
    (h : idle.erase p.index = (flag, rest)) (i : Nat) : i ∈ rest ↔ i ≠ p.index ∧ i ∈ idle := by
  rw [← BitSet.mem_erase, h]

/-- A procedure is taken out only if it is idle. -/
theorem mem_iff_of_erase {p : ProcId} {flag : Bool} {rest : BitSet}
    (h : idle.erase p.index = (flag, rest)) : p.index ∈ idle ↔ flag = true := by
  have hfst := BitSet.erase_fst idle p.index
  rw [h] at hfst
  rw [BitSet.mem_iff, ← hfst]

theorem PrunesTo.subset (h : PrunesTo callers stack idle left) : ∀ i ∈ left, i ∈ idle := by
  induction h with
  | done => exact fun _ hi => hi
  | takeOut herase _ ih => exact fun i hi => ((mem_of_erase herase i).1 (ih i hi)).2
  | skip herase _ ih => exact fun i hi => ((mem_of_erase herase i).1 (ih i hi)).2

/-- Nothing on the stack is left. -/
theorem PrunesTo.not_mem_stack (h : PrunesTo callers stack idle left) :
    ∀ p ∈ stack, p.index ∉ left := by
  induction h with
  | done => simp
  | takeOut herase h ih =>
    intro q hq
    rcases List.mem_cons.1 hq with rfl | hq
    · exact fun hin => ((mem_of_erase herase _).1 (h.subset _ hin)).1 rfl
    · exact ih q (List.mem_append_right _ hq)
  | skip herase h ih =>
    intro q hq
    rcases List.mem_cons.1 hq with rfl | hq
    · exact fun hin => ((mem_of_erase herase _).1 (h.subset _ hin)).1 rfl
    · exact ih q hq

/-- No caller of a procedure that was taken out is left. -/
theorem PrunesTo.closed (h : PrunesTo callers stack idle left) {p : ProcId} (hp : p.index ∈ idle)
    (hout : p.index ∉ left) : ∀ q ∈ callers p, q.index ∉ left := by
  induction h with
  | done => exact absurd hp hout
  | @takeOut p' _ _ _ _ herase h ih =>
    by_cases heq : p.index = p'.index
    · obtain rfl := ProcId.index_inj.1 heq
      exact fun q hq => h.not_mem_stack q (List.mem_append_left _ hq)
    · exact ih ((mem_of_erase herase _).2 ⟨heq, hp⟩) hout
  | @skip p' _ _ _ _ herase _ ih =>
    have hne : p.index ≠ p'.index := fun heq => by
      have hflag := (mem_iff_of_erase herase).1 (heq ▸ hp)
      cases hflag
    exact ih ((mem_of_erase herase _).2 ⟨hne, hp⟩) hout

/-- Whatever holds on the stack and passes on to callers holds of all that is taken out. -/
theorem PrunesTo.awaited {P : ProcId → Prop} (h : PrunesTo callers stack idle left)
    (hstack : ∀ p ∈ stack, P p) (hstep : ∀ p, P p → p.index ∈ idle → ∀ q ∈ callers p, P q)
    {p : ProcId} (hp : p.index ∈ idle) (hout : p.index ∉ left) : P p := by
  induction h with
  | done => exact absurd hp hout
  | @takeOut p' _ _ _ _ herase _ ih =>
    have hp' : P p' := hstack p' List.mem_cons_self
    by_cases heq : p.index = p'.index
    · exact ProcId.index_inj.1 heq ▸ hp'
    · refine ih (fun q hq => ?_) (fun q hq hidle => hstep q hq ((mem_of_erase herase _).1 hidle).2)
        ((mem_of_erase herase _).2 ⟨heq, hp⟩) hout
      rcases List.mem_append.1 hq with hq | hq
      · exact hstep p' hp' ((mem_iff_of_erase herase).2 rfl) q hq
      · exact hstack q (List.mem_cons_of_mem _ hq)
  | @skip p' _ _ _ _ herase _ ih =>
    have hne : p.index ≠ p'.index := fun heq => by
      have hflag := (mem_iff_of_erase herase).1 (heq ▸ hp)
      cases hflag
    exact ih (fun q hq => hstack q (List.mem_cons_of_mem _ hq))
      (fun q hq hidle => hstep q hq ((mem_of_erase herase _).1 hidle).2)
      ((mem_of_erase herase _).2 ⟨hne, hp⟩) hout

end Loop

/-! ## Collectable procedures -/

theorem mem_idle {i : Nat} : i ∈ r.idle ↔ i ∈ r.candidates ∧ r.countAt i = 0 := by
  simp [idle, BitSet.mem_toList]

theorem mem_idleSet {i : Nat} : i ∈ r.idleSet ↔ i ∈ r.candidates ∧ r.countAt i = 0 := by
  rw [idleSet, BitSet.mem_insertMany, mem_idle]
  exact or_iff_left (BitSet.not_mem_ofCapacity _ i)

theorem mem_busyCallers {callers : ProcId → List ProcId} (hp : p.index ∈ r.candidates)
    (hcount : 0 < r.count p) (hq : q ∈ callers p) : q ∈ r.busyCallers callers := by
  refine List.mem_flatMap.2 ⟨p.index, List.mem_filter.2 ⟨BitSet.mem_toList.2 hp, ?_⟩, ?_⟩
  · exact decide_eq_true hcount
  · rw [procAt_index]
    exact hq

/-- The loop that looks for collectable procedures ends, and what it leaves is listed. -/
theorem collectable_prunesTo (r : Retention) (callers : ProcId → List ProcId) :
    ∃ left, PrunesTo callers (r.busyCallers callers) r.idleSet left ∧
      r.collectable callers = (left.toList.map procAt, { r with runs := r.runs + 1 }) := by
  have hload : load callers r.idle r.idleSet =
      (r.idle.flatMap fun i => callers (procAt i)).length := by
    rw [List.length_flatMap, load]
    exact congrArg List.sum (List.map_congr_left fun i hi =>
      if_pos (BitSet.mem_iff.1 (mem_idleSet.2 (mem_idle.1 hi))))
  exact ⟨_, prune_prunesTo (fun i hi => mem_idle.2 (mem_idleSet.1 hi))
    (Nat.le_of_eq (congrArg (_ + ·) hload)), rfl⟩

/-- A candidate with pending work, and one that was taken out, keep their callers. -/
theorem PrunesTo.callers_out {callers : ProcId → List ProcId} {left : BitSet}
    (h : PrunesTo callers (r.busyCallers callers) r.idleSet left) (hp : p.index ∈ r.candidates)
    (hout : p.index ∉ left) (hq : q ∈ callers p) : q.index ∉ left := by
  by_cases hcount : r.count p = 0
  · exact h.closed (mem_idleSet.2 ⟨hp, hcount⟩) hout q hq
  · exact h.not_mem_stack q (mem_busyCallers hp (Nat.pos_of_ne_zero hcount) hq)

theorem mem_map_procAt {left : BitSet} (hleft : ∀ i ∈ left, ∃ q : ProcId, q.index = i) :
    p ∈ left.toList.map procAt ↔ p.index ∈ left := by
  rw [List.mem_map]
  constructor
  · rintro ⟨i, hi, rfl⟩
    have hi := BitSet.mem_toList.1 hi
    obtain ⟨q, rfl⟩ := hleft i hi
    rw [procAt_index]
    exact hi
  · exact fun hp => ⟨p.index, BitSet.mem_toList.2 hp, procAt_index p⟩

/-- A collectable procedure is an idle candidate, and so is every candidate that it calls. -/
theorem collectable_spec {r r' : Retention} {callers : ProcId → List ProcId} {ps : List ProcId}
    (hr : ∀ i ∈ r.candidates, ∃ p : ProcId, p.index = i)
    (h : r.collectable callers = (ps, r')) :
    r'.counts = r.counts ∧ r'.candidates = r.candidates ∧
      ∀ p ∈ ps, p.index ∈ r.candidates ∧ r.count p = 0 ∧
        ∀ q, q.index ∈ r.candidates → p ∈ callers q → q ∈ ps := by
  obtain ⟨left, hleft, heq⟩ := collectable_prunesTo r callers
  obtain ⟨rfl, rfl⟩ := Prod.mk.inj (h.symm.trans heq)
  have hmem : ∀ p : ProcId, p ∈ left.toList.map procAt ↔ p.index ∈ left := fun p =>
    mem_map_procAt fun i hi => hr i (mem_idleSet.1 (hleft.subset i hi)).1
  refine ⟨rfl, rfl, fun p hp => ?_⟩
  have hp := (hmem p).1 hp
  obtain ⟨hcand, hcount⟩ := mem_idleSet.1 (hleft.subset _ hp)
  refine ⟨hcand, hcount, fun q hq hcall => (hmem q).2 ?_⟩
  by_contra hout
  exact hleft.callers_out hq hout hcall hp

/-! ## Which procedures are collectable -/

/-- The states that the operations lead to. -/
inductive Reached : Retention → Prop
  | start (n : Nat) : Reached (ofSize n)
  | retain {r : Retention} (p : ProcId) : Reached r → Reached (r.retain p)
  | release {r r' : Retention} {p : ProcId} : Reached r → r.release p = .ok r' → Reached r'
  | collected {r : Retention} (p : ProcId) : Reached r → Reached (r.collected p)
  | collectable {r : Retention} (callers : ProcId → List ProcId) :
      Reached r → Reached (r.collectable callers).2

/-- Only procedures become candidates. -/
theorem Reached.exists_proc (h : Reached r) : ∀ i ∈ r.candidates, ∃ p : ProcId, p.index = i := by
  induction h with
  | start n => exact fun i hi => absurd hi (BitSet.not_mem_ofCapacity n i)
  | retain p _ ih =>
    intro i hi
    rcases mem_candidates_retain.1 hi with rfl | hi
    · exact ⟨p, rfl⟩
    · exact ih i hi
  | release _ h ih => exact (release_countAt h).1 ▸ ih
  | collected p _ ih => exact fun i hi => ih i (BitSet.mem_erase.1 hi).2
  | collectable callers _ ih => exact ih

/-- A chain of callers leads to `c` from a candidate with pending work, and everything between them
is a candidate. -/
def Awaited (r : Retention) (callers : ProcId → List ProcId) (c : ProcId) : Prop :=
  ∃ h hs, h.index ∈ r.candidates ∧ 0 < r.count h ∧ (∀ q ∈ hs, q.index ∈ r.candidates) ∧
    List.IsChain (fun a b => b ∈ callers a) (h :: hs ++ [c])

theorem awaited_of_mem {callers : ProcId → List ProcId} (h : q ∈ r.busyCallers callers)
    (hr : Reached r) : r.Awaited callers q := by
  obtain ⟨i, hi, hq⟩ := List.mem_flatMap.1 h
  obtain ⟨hi, hcount⟩ := List.mem_filter.1 hi
  have hi := BitSet.mem_toList.1 hi
  obtain ⟨p, rfl⟩ := hr.exists_proc i hi
  rw [procAt_index] at hq
  exact ⟨p, [], hi, of_decide_eq_true hcount, by simp, by simpa using hq⟩

/-- A chain can be continued at a candidate. -/
theorem Awaited.next {callers : ProcId → List ProcId} (h : r.Awaited callers p)
    (hp : p.index ∈ r.candidates) (hq : q ∈ callers p) : r.Awaited callers q := by
  obtain ⟨a, as, ha, hcount, has, hchain⟩ := h
  refine ⟨a, as ++ [p], ha, hcount, fun b hb => ?_, ?_⟩
  · rcases List.mem_append.1 hb with hb | hb
    · exact has b hb
    · exact List.mem_singleton.1 hb ▸ hp
  · rw [← List.cons_append, List.isChain_append]
    refine ⟨hchain, by simp, fun x hx y hy => ?_⟩
    simp only [List.getLast?_append, List.getLast?_singleton, Option.some_or, Option.mem_some_iff,
      List.head?_cons] at hx hy
    exact hx ▸ hy ▸ hq

/-- Nothing that a chain of callers leads to is left. -/
theorem PrunesTo.not_awaited {callers : ProcId → List ProcId} {left : BitSet} {c : ProcId}
    (h : PrunesTo callers (r.busyCallers callers) r.idleSet left) {a : ProcId}
    {as : List ProcId} (ha : a.index ∈ r.candidates) (hout : a.index ∉ left)
    (has : ∀ b ∈ as, b.index ∈ r.candidates)
    (hchain : List.IsChain (fun a b => b ∈ callers a) (a :: as ++ [c])) : c.index ∉ left := by
  -- Along the chain nothing is left, from the first procedure on.
  induction as generalizing a with
  | nil => exact h.callers_out ha hout (by simpa using hchain)
  | cons b as ih =>
    obtain ⟨hb, hchain⟩ := List.isChain_cons_cons.1 hchain
    exact ih (has b List.mem_cons_self) (h.callers_out ha hout hb)
      (fun b' hb' => has b' (List.mem_cons_of_mem b hb')) hchain

/-- **The collectable procedures are exactly the idle candidates that no chain of callers leads to
from a candidate with pending work.** The loop that looks for them ends, they are listed in
ascending order, each once, and looking for them changes neither counts nor candidates. -/
theorem collectable_exact (hr : Reached r) (callers : ProcId → List ProcId) :
    (∃ left, PrunesTo callers (r.busyCallers callers) r.idleSet left ∧
      (r.collectable callers).1 = left.toList.map procAt) ∧
    (r.collectable callers).1.Pairwise (fun p q => p.index < q.index) ∧
    (∀ c, c ∈ (r.collectable callers).1 ↔
      c.index ∈ r.candidates ∧ r.count c = 0 ∧ ¬ r.Awaited callers c) ∧
    (∀ p, (r.collectable callers).2.count p = r.count p) ∧
    (r.collectable callers).2.candidates = r.candidates := by
  obtain ⟨left, hleft, heq⟩ := collectable_prunesTo r callers
  have hprocs : ∀ i ∈ left, ∃ p : ProcId, p.index = i := fun i hi =>
    hr.exists_proc i (mem_idleSet.1 (hleft.subset i hi)).1
  rw [heq]
  refine ⟨⟨left, hleft, rfl⟩, ?_, fun c => ?_, fun _ => rfl, rfl⟩
  · refine List.pairwise_map.2 (left.pairwise_toList.imp_of_mem fun {i j} hi hj hij => ?_)
    obtain ⟨p, rfl⟩ := hprocs i (BitSet.mem_toList.1 hi)
    obtain ⟨q, rfl⟩ := hprocs j (BitSet.mem_toList.1 hj)
    rwa [procAt_index, procAt_index]
  · rw [mem_map_procAt hprocs]
    constructor
    · intro hc
      obtain ⟨hcand, hcount⟩ := mem_idleSet.1 (hleft.subset _ hc)
      refine ⟨hcand, hcount, fun ⟨a, as, ha, hbusy, has, hchain⟩ => ?_⟩
      have hout : a.index ∉ left := fun hin =>
        Nat.ne_of_gt hbusy (mem_idleSet.1 (hleft.subset _ hin)).2
      exact hleft.not_awaited ha hout has hchain hc
    · rintro ⟨hcand, hcount, hfree⟩
      by_contra hout
      exact hfree (hleft.awaited (fun p hp => awaited_of_mem hp hr)
        (fun p hp hidle q hq => hp.next (mem_idleSet.1 hidle).1 hq)
        (mem_idleSet.2 ⟨hcand, hcount⟩) hout)

namespace Cyclic

/-- Procedures 1 and 2 call each other, 3 is called by 1, and 0 calls itself and is called by 4. -/
def callers (p : ProcId) : List ProcId :=
  ([[0, 4], [2], [1], [1]].getD p.index []).map ProcId.mk

/-- Procedures 0 to 3 were retained, and all but 3 were released again. -/
def state : Except Fault Retention := do
  let r := [0, 1, 2, 3].foldl (fun r i => r.retain ⟨i⟩) (ofSize 2)
  let r ← r.release ⟨0⟩
  let r ← r.release ⟨1⟩
  r.release ⟨2⟩

theorem reached (h : state = .ok r) : Reached r := by
  obtain ⟨r₁, h₁, h⟩ := bind_eq_ok.1 h
  obtain ⟨r₂, h₂, h⟩ := bind_eq_ok.1 h
  exact .release (.release (.release (.retain _ (.retain _ (.retain _ (.retain _ (.start 2))))) h₁)
    h₂) h

end Cyclic

/-- Procedure 3 has pending work, so its caller 1 and the caller 2 of that are kept. -/
theorem collectable_exact_cycle : ∃ r, Cyclic.state = .ok r ∧ Reached r ∧
    (r.collectable Cyclic.callers).1 = [⟨0⟩] ∧ ¬ r.Awaited Cyclic.callers ⟨0⟩ ∧
      r.Awaited Cyclic.callers ⟨2⟩ := by
  have heval : (Cyclic.state.map fun r => ((r.collectable Cyclic.callers).1,
      r.candidates.contains 2, r.count ⟨2⟩)) = .ok ([⟨0⟩], true, 0) := by decide +kernel
  cases hstate : Cyclic.state with
  | error f => rw [hstate] at heval; cases heval
  | ok r =>
    rw [hstate] at heval
    obtain ⟨hlist, hrest⟩ := Prod.mk.inj (Except.ok.inj heval)
    obtain ⟨hcand, hcount⟩ := Prod.mk.inj hrest
    have hr := Cyclic.reached hstate
    obtain ⟨-, -, hmem, -⟩ := collectable_exact hr Cyclic.callers
    rw [hlist] at hmem
    refine ⟨r, rfl, hr, hlist, ((hmem ⟨0⟩).1 (by simp)).2.2, ?_⟩
    by_contra hfree
    have hin := (hmem ⟨2⟩).2 ⟨hcand, hcount, hfree⟩
    simp at hin

end Retention

end Tabulation
