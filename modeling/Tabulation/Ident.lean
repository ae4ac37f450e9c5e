import Std.Data.TreeMap
import Std.Data.TreeSet

/-!
# Numbers of nodes, facts and procedures

Nodes, facts and procedures are numbered densely with 32-bit numbers on first sight, and tables are
keyed by these numbers. Three types keep the three numberings apart.

**Packed keys.** Two numbers are packed into one 64-bit key, the first in the upper half. `unpack`
takes a key apart again: `unpack_pack` and `pack_unpack` say that packing is a bijection, so a table
under packed keys never confuses two pairs.

**Lexicographic keys.** Tables keyed by a pair of keys use the lexicographic order on pairs.
-/

namespace Tabulation

/-! ## The three numberings -/

/-- The number of a node of the supergraph. -/
structure NodeId where
  val : UInt32
  deriving DecidableEq, Repr

/-- The number of a data-flow fact. -/
structure FactId where
  val : UInt32
  deriving DecidableEq, Repr

/-- The number of a procedure. -/
structure ProcId where
  val : UInt32
  deriving DecidableEq, Repr

instance : Ord NodeId := ⟨compareOn NodeId.val⟩
instance : Ord FactId := ⟨compareOn FactId.val⟩
instance : Ord ProcId := ⟨compareOn ProcId.val⟩

instance : Std.TransOrd NodeId := inferInstanceAs (Std.TransCmp (compareOn NodeId.val))
instance : Std.TransOrd FactId := inferInstanceAs (Std.TransCmp (compareOn FactId.val))
instance : Std.TransOrd ProcId := inferInstanceAs (Std.TransCmp (compareOn ProcId.val))

instance : Std.LawfulEqOrd NodeId where
  eq_of_compare {a b} h := by
    cases a; cases b
    exact congrArg NodeId.mk (Std.LawfulEqOrd.eq_of_compare h)

instance : Std.LawfulEqOrd FactId where
  eq_of_compare {a b} h := by
    cases a; cases b
    exact congrArg FactId.mk (Std.LawfulEqOrd.eq_of_compare h)

instance : Std.LawfulEqOrd ProcId where
  eq_of_compare {a b} h := by
    cases a; cases b
    exact congrArg ProcId.mk (Std.LawfulEqOrd.eq_of_compare h)

/-- The position that the number stands for. -/
def NodeId.index (n : NodeId) : Nat := n.val.toNat

/-- The position that the number stands for. -/
def FactId.index (d : FactId) : Nat := d.val.toNat

/-- The position that the number stands for. -/
def ProcId.index (p : ProcId) : Nat := p.val.toNat

instance : ToString NodeId := ⟨fun n => s!"n{n.val}"⟩
instance : ToString FactId := ⟨fun d => s!"d{d.val}"⟩
instance : ToString ProcId := ⟨fun p => s!"f{p.val}"⟩

/-- The number of the zero fact, which every solver numbers first. -/
def FactId.zero : FactId := ⟨0⟩

/-- Whether this is the zero fact. -/
def FactId.isZero (d : FactId) : Bool := d.val == 0

/-! ## Packed keys -/

/-- Two numbers in one key, the first in the upper half. -/
def pack (hi lo : UInt32) : UInt64 := hi.toUInt64 <<< 32 ||| lo.toUInt64

/-- The two halves of a key. -/
def unpack (key : UInt64) : UInt32 × UInt32 := ((key >>> 32).toUInt32, key.toUInt32)

/-- The key of a pair of facts. -/
def factPair (source target : FactId) : UInt64 := pack source.val target.val

/-- The pair of facts of a key. -/
def unpackFacts (key : UInt64) : FactId × FactId :=
  let (source, target) := unpack key
  (⟨source⟩, ⟨target⟩)

theorem toNat_pack (hi lo : UInt32) : (pack hi lo).toNat = hi.toNat * 4294967296 + lo.toNat := by
  have hhi := hi.toNat_lt
  have hlo := lo.toNat_lt
  have hshift : (hi.toUInt64 <<< 32).toNat = hi.toNat <<< 32 := by
    rw [UInt64.toNat_shiftLeft]
    simp only [UInt32.toNat_toUInt64]
    rw [show (32 : UInt64).toNat % 64 = 32 from rfl, Nat.mod_eq_of_lt (by omega)]
  rw [pack, UInt64.toNat_or, hshift, UInt32.toNat_toUInt64,
    ← Nat.shiftLeft_add_eq_or_of_lt (by omega)]
  omega

@[simp] theorem unpack_pack (hi lo : UInt32) : unpack (pack hi lo) = (hi, lo) := by
  have h := toNat_pack hi lo
  have hhi := hi.toNat_lt
  have hlo := lo.toNat_lt
  refine Prod.ext (UInt32.toNat_inj.1 ?_) (UInt32.toNat_inj.1 ?_)
  · simp only [unpack, UInt64.toNat_toUInt32, UInt64.toNat_shiftRight, h]
    rw [show (32 : UInt64).toNat % 64 = 32 from rfl, Nat.shiftRight_eq_div_pow]
    omega
  · simp only [unpack, UInt64.toNat_toUInt32, h]
    omega

@[simp] theorem pack_unpack (key : UInt64) : pack (unpack key).1 (unpack key).2 = key := by
  refine UInt64.toNat_inj.1 ?_
  have hkey := key.toNat_lt
  rw [toNat_pack]
  simp only [unpack, UInt64.toNat_toUInt32, UInt64.toNat_shiftRight]
  rw [show (32 : UInt64).toNat % 64 = 32 from rfl, Nat.shiftRight_eq_div_pow]
  omega

theorem pack_inj {a b c d : UInt32} : pack a b = pack c d ↔ a = c ∧ b = d := by
  refine ⟨fun h => ?_, fun ⟨h, k⟩ => h ▸ k ▸ rfl⟩
  have := congrArg unpack h
  simpa using this

@[simp] theorem unpackFacts_factPair (source target : FactId) :
    unpackFacts (factPair source target) = (source, target) := by
  simp [unpackFacts, factPair]

theorem factPair_inj {a b c d : FactId} : factPair a b = factPair c d ↔ a = c ∧ b = d := by
  cases a; cases b; cases c; cases d
  simp [factPair, pack_inj]

/-! ## Pairs as keys -/

section Pairs

variable {α β : Type} [Ord α] [Ord β]

/-- Pairs are ordered by their first component, then by their second. -/
instance instOrdPair : Ord (α × β) := lexOrd

instance instTransOrdPair [Std.TransOrd α] [Std.TransOrd β] : Std.TransOrd (α × β) :=
  inferInstanceAs (Std.TransCmp (compareLex (compareOn Prod.fst) (compareOn Prod.snd)))

instance instLawfulEqOrdPair [Std.LawfulEqOrd α] [Std.LawfulEqOrd β] :
    Std.LawfulEqOrd (α × β) where
  compare_self {a} := by simp [compare, compareLex, compareOn]
  eq_of_compare {a b} h := by
    obtain ⟨h₁, h₂⟩ := Ordering.then_eq_eq.1 (h : (compare a.1 b.1).then (compare a.2 b.2) = .eq)
    exact Prod.ext (Std.LawfulEqOrd.eq_of_compare h₁) (Std.LawfulEqOrd.eq_of_compare h₂)

end Pairs

end Tabulation
