import Mathlib
import Tabulation.BitSet

/-!
# Membership in bit sets

A bit set is known by its members. Each operation is described by which numbers are members after
it; the words stay out of sight.
-/

namespace Tabulation

namespace BitSet

instance : Membership Nat BitSet := ⟨fun s i => s.contains i = true⟩

theorem mem_iff {s : BitSet} {i : Nat} : i ∈ s ↔ s.contains i = true := Iff.rfl

theorem toBitVec_bit (i : Nat) : (bit i).toBitVec = BitVec.twoPow 64 (i % 64) := by
  have hlt : i % 64 < 2 ^ 64 := by omega
  apply BitVec.eq_of_toNat_eq
  simp [bit, BitVec.toNat_twoPow, Nat.shiftLeft_eq]

/-- Testing a bit of a word. -/
theorem and_bit_ne_zero (w : UInt64) (i : Nat) :
    (w &&& bit i != 0) = w.toBitVec.getLsbD (i % 64) := by
  have hpow : BitVec.twoPow 64 (i % 64) ≠ 0#64 := by
    intro h
    have := congrArg (·.getLsbD (i % 64)) h
    simp [BitVec.getLsbD_twoPow] at this
    omega
  rw [bne, Bool.eq_iff_iff, Bool.not_eq_true', beq_eq_false_iff_ne, ne_eq, ← UInt64.toBitVec_inj,
    UInt64.toBitVec_and, toBitVec_bit, BitVec.and_twoPow]
  split <;> simp_all

/-- A number is a member if its bit is set. -/
theorem mem_iff_getLsbD {s : BitSet} {i : Nat} :
    i ∈ s ↔ ∃ w : UInt64, s.words[i / 64]? = some w ∧ w.toBitVec.getLsbD (i % 64) = true := by
  rw [mem_iff, contains]
  cases s.words[i / 64]? with
  | none => simp
  | some w => simp only [and_bit_ne_zero, Option.some.injEq, exists_eq_left']

theorem not_mem_ofCapacity (n i : Nat) : i ∉ ofCapacity n := by
  rw [mem_iff_getLsbD]
  rintro ⟨w, hw, hbit⟩
  simp only [ofCapacity, Array.getElem?_replicate] at hw
  split at hw
  · obtain rfl := Option.some.inj hw
    simp at hbit
  · cases hw

theorem mem_grow {words : Array UInt64} {n i count : Nat} :
    i ∈ (⟨grow words n, count⟩ : BitSet) ↔ i ∈ (⟨words, count⟩ : BitSet) := by
  simp only [mem_iff_getLsbD, grow, Array.getElem?_append, Array.getElem?_replicate]
  split
  · rfl
  · next hge =>
    rw [Array.getElem?_eq_none (by omega)]
    split <;> simp

theorem mem_insert {s : BitSet} {i j : Nat} : j ∈ (s.insert i).2 ↔ j = i ∨ j ∈ s := by
  have hsize : i / 64 < (grow s.words (i / 64 + 1)).size := by
    simp [grow]
    omega
  unfold insert
  split
  · next hi =>
    rw [mem_grow]
    constructor
    · exact .inr
    · rintro (rfl | hj)
      · exact hi
      · exact hj
  · have hgrow := @mem_grow s.words (i / 64 + 1) j s.count
    simp only [mem_iff_getLsbD] at hgrow ⊢
    rw [← hgrow, Array.getElem?_modify]
    split
    · next hdiv =>
      rw [← hdiv, Array.getElem?_eq_getElem hsize]
      have hmod : i % 64 = j % 64 ↔ j = i := by omega
      simp [toBitVec_bit, BitVec.getLsbD_twoPow, hmod]
      grind
    · next hdiv =>
      have hne : j ≠ i := fun h => hdiv (by rw [h])
      simp [hne]

theorem mem_erase {s : BitSet} {i j : Nat} : j ∈ (s.erase i).2 ↔ j ≠ i ∧ j ∈ s := by
  unfold erase
  split
  · simp only [mem_iff_getLsbD, Array.getElem?_modify]
    split
    · next hdiv =>
      rw [← hdiv]
      have hmod : i % 64 = j % 64 ↔ j = i := by omega
      cases s.words[i / 64]? with
      | none => simp
      | some w => simp [toBitVec_bit, BitVec.getLsbD_twoPow, hmod]; grind
    · next hdiv =>
      have hne : j ≠ i := fun h => hdiv (by rw [h])
      simp [hne]
  · next hi =>
    constructor
    · intro hj
      refine ⟨?_, hj⟩
      rintro rfl
      exact hi hj
    · exact fun h => h.2

theorem erase_fst (s : BitSet) (i : Nat) : (s.erase i).1 = s.contains i := by
  unfold erase
  split <;> simp_all

theorem mem_insertMany {s : BitSet} {is : List Nat} {j : Nat} :
    j ∈ s.insertMany is ↔ j ∈ is ∨ j ∈ s := by
  unfold insertMany
  induction is generalizing s with
  | nil => simp
  | cons i is ih =>
    rw [List.foldl_cons, ih, mem_insert, List.mem_cons]
    grind

theorem mem_toList {s : BitSet} {i : Nat} : i ∈ s.toList ↔ i ∈ s := by
  simp only [toList, wordMembers, List.mem_flatMap, Prod.exists, List.mk_mem_zipIdx_iff_getElem?,
    List.mem_map, List.mem_filter, List.mem_range, and_bit_ne_zero, mem_iff_getLsbD,
    Array.getElem?_toList]
  constructor
  · rintro ⟨w, k, hw, j, ⟨hj, hbit⟩, rfl⟩
    rw [Nat.mod_eq_of_lt hj] at hbit
    refine ⟨w, ?_, ?_⟩
    · rw [show (64 * k + j) / 64 = k by omega]
      exact hw
    · rw [show (64 * k + j) % 64 = j by omega]
      exact hbit
  · rintro ⟨w, hw, hbit⟩
    refine ⟨w, i / 64, hw, i % 64, ⟨by omega, ?_⟩, by omega⟩
    rw [Nat.mod_mod]
    exact hbit

theorem pairwise_wordMembers (k : Nat) (w : UInt64) : (wordMembers k w).Pairwise (· < ·) := by
  refine List.Pairwise.map _ (fun a b hab => ?_) (List.Pairwise.filter _ List.pairwise_lt_range)
  omega

/-- The members are listed in ascending order, each once. -/
theorem pairwise_toList (s : BitSet) : s.toList.Pairwise (· < ·) := by
  refine List.pairwise_flatMap.2 ⟨fun x _ => pairwise_wordMembers x.2 x.1, ?_⟩
  rw [List.pairwise_iff_getElem]
  intro i j hi hj hij x hx y hy
  simp only [List.getElem_zipIdx, wordMembers, List.mem_map, List.mem_filter,
    List.mem_range] at hx hy
  obtain ⟨a, ⟨ha, -⟩, rfl⟩ := hx
  obtain ⟨b, -, rfl⟩ := hy
  omega

end BitSet

end Tabulation
