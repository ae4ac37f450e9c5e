import Tabulation.Proofs.Numbering
import Tabulation.Proofs.ValueTable

/-!
# Codes and the values they can take

A code of values fails only for want of room. `MeteredCode` says which histories of values it can
take; for interners these are the histories with numbers for all their distinct values.

**Less is easier.** What can be encoded can also be encoded if less was encoded before. This is all
that a comparison of two runs needs when one of them writes fewer values than the other,
`ThriftyCode`, and every metered code has it.
-/

namespace Tabulation

/-- A code that fails only if it cannot take the values written so far. -/
class MeteredCode (σ L : Type) [ValueCode σ L] where
  /-- The histories of values that the code can take. -/
  Admits : List L → Prop
  /-- The state after a history. -/
  After : σ → List L → Prop
  after_empty : After (ValueCode.empty L) []
  encode_ok {s : σ} {ws : List L} {v : L} : After s ws → Admits (ws ++ [v]) →
    ∃ c s', ValueCode.encode s v = .ok (c, s') ∧ After s' (ws ++ [v])
  encode_full {s : σ} {ws : List L} {v : L} : After s ws → ¬ Admits (ws ++ [v]) →
    ValueCode.encode s v = .error .idsExhausted
  admits_nil : Admits []
  admits_of_subset {ws vs : List L} : ws ⊆ vs → Admits vs → Admits ws

instance {L : Type} : MeteredCode (Verbatim L) L where
  Admits _ := True
  After _ _ := True
  after_empty := trivial
  encode_ok {s _ v} _ _ := ⟨v, s, rfl, trivial⟩
  encode_full _ h := absurd trivial h
  admits_nil := trivial
  admits_of_subset _ _ := trivial

section Numberable

variable {L : Type} [DecidableEq L] {ws vs : List L}

/-- The numbers suffice for the distinct values of the list. -/
def Numberable (ws : List L) : Prop := ws.eraseDups.length < UInt32.size

instance (ws : List L) : Decidable (Numberable ws) :=
  inferInstanceAs (Decidable (ws.eraseDups.length < UInt32.size))

theorem numberable_nil : Numberable ([] : List L) := by
  simp [Numberable]

theorem numberable_of_subset (h : ws ⊆ vs) (hvs : Numberable vs) : Numberable ws :=
  (length_eraseDups_le_of_subset h).trans_lt hvs

end Numberable

section Interners

variable {L : Type} [Ord L] [Std.TransOrd L] [Std.LawfulEqOrd L] [DecidableEq L]

instance : MeteredCode (Interner L) L where
  Admits := Numberable
  After t ws := t.Numbers id ws
  after_empty := Interner.numbers_empty
  encode_ok h hroom := by
    obtain ⟨t', ht, h'⟩ := Interner.intern_numbers h hroom
    exact ⟨_, t', ht, h'⟩
  encode_full h hfull := Interner.intern_full h hfull
  admits_nil := numberable_nil
  admits_of_subset := numberable_of_subset

instance : LawfulCode (SharedInterner L) L where
  Valid t := ∃ ws, t.handles.Numbers Shared.value ws
  valid_empty := ⟨[], Interner.numbers_empty⟩
  encode_spec {s s' v c} hs h := by
    obtain ⟨ws, hws⟩ := hs
    have hstep := hws.intern (fun _ _ => compare_shared) ⟨s.size, v⟩
    obtain ⟨⟨id, handles⟩, hask, h⟩ := bind_eq_ok.1 h
    obtain ⟨rfl, rfl⟩ := Prod.mk.inj (Except.ok.inj h)
    split at hstep
    · obtain ⟨t', ht, hws'⟩ := hstep
      obtain ⟨rfl, rfl⟩ := Prod.mk.inj (Except.ok.inj (ht.symm.trans hask))
      refine ⟨⟨_, hws'⟩, ?_, fun i w hi => ?_⟩
      · have hmem : v ∈ ws ++ [v] := by simp
        refine (hws'.get?_map _).trans ?_
        rw [toNat_numberIn hws'.room hmem,
          List.getElem?_eq_getElem (idxOf_eraseDups_lt hmem), List.getElem_idxOf]
      · refine (hws'.get?_map i).trans ?_
        have hi : ws.eraseDups[i.toNat]? = some w := (hws.get?_map i).symm.trans hi
        rw [List.eraseDups_append,
          List.getElem?_append_left (List.getElem?_eq_some_iff.1 hi).1, hi]
    · rw [hstep] at hask
      cases hask

instance : MeteredCode (SharedInterner L) L where
  Admits := Numberable
  After t ws := t.handles.Numbers Shared.value ws
  after_empty := Interner.numbers_empty
  encode_ok h hroom := by
    obtain ⟨t', ht, h'⟩ := SharedInterner.intern_numbers h hroom
    exact ⟨_, t', ht, h'⟩
  encode_full h hfull := SharedInterner.intern_full h hfull
  admits_nil := numberable_nil
  admits_of_subset := numberable_of_subset

end Interners

/-! ## Codes side by side -/

/-- Codes that fail only for want of room: what can be encoded can also be encoded if less was
encoded before. -/
class ThriftyCode (σ L : Type) [ValueCode σ L] [LawfulCode σ L] where
  /-- The first state holds no more than the second. -/
  Within : σ → σ → Prop
  within_empty : Within (ValueCode.empty L) (ValueCode.empty L)
  within_encode {s' s t : σ} {v : L} {c : ValueCode.Code σ L} : LawfulCode.Valid L s' →
    LawfulCode.Valid L s → Within s' s → ValueCode.encode s v = .ok (c, t) →
    Within s' t ∧ ∃ c' t', ValueCode.encode s' v = .ok (c', t') ∧ Within t' t

instance {σ L : Type} [ValueCode σ L] [LawfulCode σ L] [MeteredCode σ L] : ThriftyCode σ L where
  Within s' s := ∃ ws' ws : List L, MeteredCode.After s' ws' ∧ MeteredCode.After s ws ∧
    MeteredCode.Admits σ ws ∧ ws' ⊆ ws
  within_empty :=
    ⟨[], [], MeteredCode.after_empty, MeteredCode.after_empty, MeteredCode.admits_nil, nofun⟩
  within_encode {s' s t v c} _ _ h hc := by
    obtain ⟨ws', ws, hs', hs, -, hsub⟩ := h
    have hadmits : MeteredCode.Admits σ (ws ++ [v]) := by
      by_contra hfull
      cases (MeteredCode.encode_full hs hfull).symm.trans hc
    obtain ⟨c₁, t₁, hc₁, ht⟩ := MeteredCode.encode_ok hs hadmits
    obtain ⟨rfl, rfl⟩ := Prod.mk.inj (Except.ok.inj (hc₁.symm.trans hc))
    have hleft : ws' ⊆ ws ++ [v] := List.Subset.trans hsub (List.subset_append_left ws [v])
    have hsub' : ws' ++ [v] ⊆ ws ++ [v] :=
      List.append_subset.2 ⟨hleft, List.subset_append_right ws [v]⟩
    obtain ⟨c', t', hc', ht'⟩ :=
      MeteredCode.encode_ok hs' (MeteredCode.admits_of_subset hsub' hadmits)
    exact ⟨⟨ws', _, hs', ht, hadmits, hleft⟩, c', t', hc', _, _, ht', ht, hadmits, hsub'⟩

end Tabulation
