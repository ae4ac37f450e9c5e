import Tabulation.Proofs.BitSet

/-!
# Bit sets are finite sets

After any history of operations, a bit set is the finite set that the same history leads to. The
number of members, kept beside the words, is the size of that set, and the flags of the operations
tell whether it changed. Its members are listed in ascending order.

**Walks.** A walk finds the members one by one in ascending order. `Scan.Left` says which members
are left at a place of the walk. `Scan.next?_spec` is the step: the next member is the least one
left, and the others stay. The walk ends, as `Scan.toList` recurs on what is left.

Main result: `BitSet.refines_finset`.
-/

namespace Tabulation

namespace BitSet

/-! ## The lowest bit -/

/-- `n &&& (n - 1)` has the bits of `n` above the lowest one. -/
theorem testBit_and_sub_one {n k : Nat} (hk : n.testBit k = true)
    (hlow : ∀ i < k, n.testBit i = false) (i : Nat) :
    (n &&& (n - 1)).testBit i = (n.testBit i && decide (k < i)) := by
  -- The number is `2 ^ k` above a multiple of `2 ^ (k + 1)`.
  have hmod : n % 2 ^ (k + 1) = 2 ^ k := by
    refine Nat.eq_of_testBit_eq fun j => ?_
    rw [Nat.testBit_mod_two_pow, Nat.testBit_two_pow]
    rcases lt_trichotomy j k with hj | rfl | hj
    · simp [hlow j hj, hj.ne']
    · simp [hk]
    · simp [hj.ne, Nat.not_lt.2 hj]
  have hn : n = 2 ^ (k + 1) * (n / 2 ^ (k + 1)) + 2 ^ k := by
    conv_lhs => rw [← Nat.div_add_mod n (2 ^ (k + 1)), hmod]
  have hpos : 0 < 2 ^ k := Nat.two_pow_pos k
  have hlt : 2 ^ k - 1 < 2 ^ (k + 1) := by
    rw [Nat.pow_succ]
    omega
  have hsub : n - 1 = 2 ^ (k + 1) * (n / 2 ^ (k + 1)) + (2 ^ k - 1) := by omega
  rw [Nat.testBit_and, hsub, Nat.testBit_two_pow_mul_add _ hlt, Nat.testBit_two_pow_sub_one]
  rcases lt_trichotomy i k with hi | rfl | hi
  · simp [hlow i hi]
  · simp
  · have hhigh : n.testBit i = (n / 2 ^ (k + 1)).testBit (i - (k + 1)) := by
      rw [Nat.testBit_div_two_pow]
      congr 1
      omega
    rw [if_neg (by omega), ← hhigh]
    simp [hi]

theorem getLsbD_lowest {w : UInt64} (hw : w ≠ 0) : w.toBitVec.getLsbD (lowest w) = true :=
  BitVec.getLsbD_true_ctz_of_ne_zero fun h => hw (UInt64.toBitVec_inj.1 h)

theorem lowest_lt {w : UInt64} (hw : w ≠ 0) : lowest w < 64 :=
  BitVec.lt_of_getLsbD (getLsbD_lowest hw)

theorem lowest_le {w : UInt64} {i : Nat} (hi : w.toBitVec.getLsbD i = true) : lowest w ≤ i := by
  by_contra hlt
  rw [BitVec.getLsbD_false_of_lt_ctz (Nat.not_le.1 hlt)] at hi
  cases hi

/-- Only the lowest bit is gone. -/
theorem getLsbD_dropLowest {w : UInt64} (hw : w ≠ 0) (i : Nat) :
    (dropLowest w).toBitVec.getLsbD i = (w.toBitVec.getLsbD i && decide (lowest w < i)) := by
  have hpos : 1 ≤ w.toNat := Nat.pos_of_ne_zero fun h0 => hw (UInt64.toNat_inj.1 h0)
  have hsub : (w - 1).toNat = w.toNat - 1 := UInt64.toNat_sub_of_le _ _ hpos
  have hbit : ∀ j, w.toBitVec.getLsbD j = w.toNat.testBit j := fun _ => rfl
  have hdrop : (dropLowest w).toBitVec.getLsbD i = (w.toNat &&& (w.toNat - 1)).testBit i := by
    rw [← hsub, ← UInt64.toNat_and]
    rfl
  rw [hdrop, hbit]
  refine testBit_and_sub_one (hbit _ ▸ getLsbD_lowest hw) (fun j hj => ?_) i
  exact hbit j ▸ BitVec.getLsbD_false_of_lt_ctz hj

/-! ## Walks -/

namespace Scan

/-- The number is left to be found. -/
def Left (c : Scan) (i : Nat) : Prop :=
  i / 64 = c.index ∧ c.current.toBitVec.getLsbD (i % 64) = true ∨
    c.index < i / 64 ∧ ∃ w : UInt64, c.words[i / 64]? = some w ∧ w.toBitVec.getLsbD (i % 64) = true

/-- A word without members is passed. -/
theorem left_pass {c : Scan} {w : UInt64} (hzero : c.current = 0)
    (hw : c.words[c.index + 1]? = some w) (i : Nat) :
    ({ c with index := c.index + 1, current := w } : Scan).Left i ↔ c.Left i := by
  simp only [Left, hzero]
  constructor
  · rintro (⟨hi, hbit⟩ | ⟨hi, hmem⟩)
    · exact .inr ⟨by omega, w, hi ▸ hw, hbit⟩
    · exact .inr ⟨by omega, hmem⟩
  · rintro (⟨-, hbit⟩ | ⟨hi, v, hv, hbit⟩)
    · simp at hbit
    · rcases Nat.eq_or_lt_of_le (Nat.succ_le_of_lt hi) with heq | hlt
      · rw [← heq, hw] at hv
        exact .inl ⟨heq.symm, Option.some.inj hv ▸ hbit⟩
      · exact .inr ⟨hlt, v, hv, hbit⟩

/-- The next member is the least one left, and the others are left after it. If there is no next
member, none is left. -/
theorem next?_spec (c : Scan) :
    match c.next? with
    | some (i, c') => (∀ j, c.Left j ↔ j = i ∨ c'.Left j) ∧ ∀ j, c'.Left j → i < j
    | none => ∀ j, ¬ c.Left j := by
  fun_induction next? c with
  | case1 c hzero w hw ih =>
    have hpass := left_pass hzero hw
    split at ih <;> simpa only [hpass] using ih
  | case2 c hzero hw =>
    rintro j (⟨-, hbit⟩ | ⟨hj, w, hw', -⟩)
    · simp [hzero] at hbit
    · have hsize := Array.getElem?_eq_none_iff.1 hw
      rw [Array.getElem?_eq_none (by omega)] at hw'
      cases hw'
  | case3 c hne =>
    have hlt := lowest_lt hne
    simp only [Left, getLsbD_dropLowest hne, Bool.and_eq_true, decide_eq_true_eq]
    refine ⟨fun j => ⟨?_, ?_⟩, ?_⟩
    · rintro (⟨hj, hbit⟩ | hlater)
      · rcases Nat.eq_or_lt_of_le (lowest_le hbit) with heq | hlow
        · exact .inl (by omega)
        · exact .inr (.inl ⟨hj, hbit, hlow⟩)
      · exact .inr (.inr hlater)
    · rintro (rfl | ⟨hj, hbit, -⟩ | hlater)
      · refine .inl ⟨by omega, ?_⟩
        rw [Nat.mul_add_mod_of_lt hlt]
        exact getLsbD_lowest hne
      · exact .inl ⟨hj, hbit⟩
      · exact .inr hlater
    · rintro j (⟨hj, -, hlow⟩ | ⟨hj, -⟩) <;> omega

/-- A walk finds what is left, in ascending order. -/
theorem toList_spec (c : Scan) :
    (∀ i, i ∈ c.toList ↔ c.Left i) ∧ c.toList.Pairwise (· < ·) := by
  fun_induction toList c with
  | case1 c i c' hnext ih =>
    obtain ⟨hmem, hsorted⟩ := ih
    have hspec := c.next?_spec
    rw [hnext] at hspec
    obtain ⟨hleft, hlater⟩ := hspec
    refine ⟨fun j => ?_, List.pairwise_cons.2 ⟨fun j hj => hlater j ((hmem j).1 hj), hsorted⟩⟩
    rw [List.mem_cons, hmem, hleft]
  | case2 c hnext =>
    have hspec := c.next?_spec
    rw [hnext] at hspec
    exact ⟨fun i => by simp [hspec i], .nil⟩

end Scan

theorem left_scan {s : BitSet} {i : Nat} : s.scan.Left i ↔ i ∈ s := by
  rw [mem_iff_getLsbD, Scan.Left, scan]
  constructor
  · rintro (⟨hi, hbit⟩ | ⟨-, hmem⟩)
    · cases hw : s.words[0]? with
      | none => simp [hw] at hbit
      | some w => exact ⟨w, hi ▸ hw, by simpa [hw] using hbit⟩
    · exact hmem
  · rintro ⟨w, hw, hbit⟩
    rcases Nat.eq_zero_or_pos (i / 64) with hi | hi
    · exact .inl ⟨hi, by simpa [hi ▸ hw] using hbit⟩
    · exact .inr ⟨hi, w, hw, hbit⟩

/-- A walk finds the members in the order in which they are listed. -/
theorem toList_eq_scan (s : BitSet) : s.toList = s.scan.toList := by
  obtain ⟨hmem, hsorted⟩ := s.scan.toList_spec
  refine s.pairwise_toList.eq_of_mem_iff hsorted fun i => ?_
  rw [mem_toList, hmem, left_scan]

/-! ## Histories -/

/-- An operation on a set of numbers. -/
inductive Op where
  | insert (i : Nat)
  | erase (i : Nat)
  | clear
  | insertMany (is : List Nat)
  deriving DecidableEq, Repr

/-- What an operation does to a bit set, with its flag if it has one. -/
def apply (s : BitSet) : Op → Option Bool × BitSet
  | .insert i => ((s.insert i).1, (s.insert i).2)
  | .erase i => ((s.erase i).1, (s.erase i).2)
  | .clear => (none, s.clear)
  | .insertMany is => (none, s.insertMany is)

/-- What an operation does to a finite set. The flag tells whether the set changes. -/
def Op.onFinset (R : Finset Nat) : Op → Option Bool × Finset Nat
  | .insert i => (some (decide (Insert.insert i R ≠ R)), Insert.insert i R)
  | .erase i => (some (decide (R.erase i ≠ R)), R.erase i)
  | .clear => (none, ∅)
  | .insertMany is => (none, is.toFinset ∪ R)

/-- The flags and the outcome of a history of operations, each described by `step`. -/
def history {τ : Type} (step : τ → Op → Option Bool × τ) (ops : List Op) (start : τ) :
    List (Option Bool) × τ :=
  ops.foldl (fun (flags, x) op => (flags ++ [(step x op).1], (step x op).2)) ([], start)

/-- The bit set has the members of the finite set, and knows how many they are. -/
structure Refines (s : BitSet) (R : Finset Nat) : Prop where
  mem : ∀ i, i ∈ s ↔ i ∈ R
  count : s.count = R.card

theorem refines_ofCapacity (n : Nat) : (ofCapacity n).Refines ∅ where
  mem i := by simp [not_mem_ofCapacity]
  count := rfl

theorem refines_clear (s : BitSet) : s.clear.Refines ∅ where
  mem i := by
    have hnot := not_mem_ofCapacity (s.words.size * 64) i
    rw [ofCapacity, show (s.words.size * 64 + 63) / 64 = s.words.size by omega] at hnot
    simpa [clear] using hnot
  count := rfl

theorem Refines.insert {s : BitSet} {R : Finset Nat} (h : s.Refines R) (i : Nat) :
    (s.insert i).1 = decide (Insert.insert i R ≠ R) ∧
      (s.insert i).2.Refines (Insert.insert i R) := by
  have hmem : ∀ j, j ∈ (s.insert i).2 ↔ j ∈ Insert.insert i R := fun j => by
    rw [mem_insert, h.mem, Finset.mem_insert]
  by_cases hi : i ∈ R
  · have hs : s.contains i = true := (h.mem i).2 hi
    refine ⟨?_, hmem, ?_⟩
    · simp [BitSet.insert, hs, hi]
    · simp [BitSet.insert, hs, hi, h.count]
  · have hs : ¬ s.contains i = true := fun hs => hi ((h.mem i).1 hs)
    refine ⟨?_, hmem, ?_⟩
    · simp [BitSet.insert, hs, hi]
    · simp [BitSet.insert, hs, hi, h.count]

theorem Refines.erase {s : BitSet} {R : Finset Nat} (h : s.Refines R) (i : Nat) :
    (s.erase i).1 = decide (R.erase i ≠ R) ∧ (s.erase i).2.Refines (R.erase i) := by
  have hmem : ∀ j, j ∈ (s.erase i).2 ↔ j ∈ R.erase i := fun j => by
    rw [mem_erase, h.mem, Finset.mem_erase]
  by_cases hi : i ∈ R
  · have hs : s.contains i = true := (h.mem i).2 hi
    refine ⟨?_, hmem, ?_⟩
    · simp [BitSet.erase, hs, hi]
    · simp [BitSet.erase, hs, hi, h.count]
  · have hs : ¬ s.contains i = true := fun hs => hi ((h.mem i).1 hs)
    refine ⟨?_, hmem, ?_⟩
    · simp [BitSet.erase, hs, hi]
    · simp [BitSet.erase, hs, hi, h.count]

theorem Refines.insertMany {s : BitSet} {R : Finset Nat} (h : s.Refines R) (is : List Nat) :
    (s.insertMany is).Refines (is.toFinset ∪ R) := by
  unfold BitSet.insertMany
  induction is generalizing s R with
  | nil => simpa using h
  | cons i is ih =>
    have hrest := ih (h.insert i).2
    rwa [Finset.union_insert, ← Finset.insert_union, ← List.toFinset_cons] at hrest

/-- One operation. -/
theorem Refines.apply {s : BitSet} {R : Finset Nat} (h : s.Refines R) (op : Op) :
    (s.apply op).1 = (op.onFinset R).1 ∧ (s.apply op).2.Refines (op.onFinset R).2 := by
  cases op with
  | insert i => exact ⟨congrArg some (h.insert i).1, (h.insert i).2⟩
  | erase i => exact ⟨congrArg some (h.erase i).1, (h.erase i).2⟩
  | clear => exact ⟨rfl, refines_clear s⟩
  | insertMany is => exact ⟨rfl, h.insertMany is⟩

/-- A history of operations. -/
theorem Refines.history {s : BitSet} {R : Finset Nat} (h : s.Refines R) (ops : List Op) :
    (BitSet.history BitSet.apply ops s).1 = (BitSet.history (fun R op => op.onFinset R) ops R).1 ∧
      (BitSet.history BitSet.apply ops s).2.Refines
        (BitSet.history (fun R op => op.onFinset R) ops R).2 := by
  induction ops using List.reverseRecOn with
  | nil => exact ⟨rfl, h⟩
  | append_singleton ops op ih =>
    obtain ⟨hflags, hrefines⟩ := ih
    obtain ⟨hflag, hnext⟩ := hrefines.apply op
    simp only [BitSet.history, List.foldl_append, List.foldl_cons, List.foldl_nil]
    exact ⟨congrArg₂ (fun flags flag => flags ++ [flag]) hflags hflag, hnext⟩

theorem Refines.contains_eq {s : BitSet} {R : Finset Nat} (h : s.Refines R) (i : Nat) :
    s.contains i = decide (i ∈ R) :=
  Bool.eq_iff_iff.2 ((h.mem i).trans decide_eq_true_iff.symm)

theorem Refines.isEmpty_eq {s : BitSet} {R : Finset Nat} (h : s.Refines R) :
    s.isEmpty = decide (R = ∅) := by
  rw [isEmpty, h.count, Bool.eq_iff_iff, beq_iff_eq, Finset.card_eq_zero, decide_eq_true_iff]

theorem Refines.scan_eq_sort {s : BitSet} {R : Finset Nat} (h : s.Refines R) :
    s.scan.toList = R.sort (· ≤ ·) := by
  obtain ⟨hmem, hsorted⟩ := s.scan.toList_spec
  refine hsorted.eq_of_mem_iff ?_ fun i => ?_
  · exact R.sortedLT_sort.pairwise
  · rw [hmem, left_scan, h.mem, Finset.mem_sort]

/-- A bit set of any capacity is, after any history of operations, the finite set that this history
leads to. -/
theorem refines_finset (capacity : Nat) (ops : List Op) :
    ∃ flags s R, history apply ops (ofCapacity capacity) = (flags, s) ∧
      history (fun R op => Op.onFinset R op) ops ∅ = (flags, R) ∧
      (∀ i, s.contains i = decide (i ∈ R)) ∧ s.size = R.card ∧ s.isEmpty = decide (R = ∅) ∧
      s.scan.toList = R.sort (· ≤ ·) ∧ s.toList = s.scan.toList := by
  obtain ⟨hflags, h⟩ := (refines_ofCapacity capacity).history ops
  exact ⟨_, _, _, rfl, Prod.ext hflags.symm rfl, h.contains_eq, h.count, h.isEmpty_eq,
    h.scan_eq_sort, toList_eq_scan _⟩

end BitSet

end Tabulation
