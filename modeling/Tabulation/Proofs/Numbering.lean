import Tabulation.Proofs.FirstMentions
import Tabulation.Proofs.Program
import Tabulation.Proofs.Interner
import Tabulation.SharedInterner

/-!
# Numbers in the order of first occurrence

Whatever history of values an interner is asked for, it is a bijection between the values of that
history and the numbers below its size. The number of a value is its position among the first
mentions, so it depends neither on what is asked for later nor on how the interner keeps values.

**One argument for both.** The entries of an interner stand for values: in an `Interner` they are
the values, in a `SharedInterner` handles to them. `Numbers` relates an interner to the history of
the values that its entries stand for, and `Numbers.intern` says what one request does. The history
of an interner determines everything that can be seen of it, `Numbers.firstSeen`.

Main result: `interners_firstSeen`.
-/

namespace Tabulation

variable {α β : Type}

/-- The number that a value gets in a history: its position among the first mentions. -/
def numberIn [DecidableEq α] (vs : List α) (a : α) : UInt32 := UInt32.ofNat (vs.eraseDups.idxOf a)

section NumberIn

variable [DecidableEq α] {vs : List α} {a b : α}

theorem numberIn_append (ha : a ∈ vs) (ws : List α) : numberIn (vs ++ ws) a = numberIn vs a := by
  rw [numberIn, idxOf_eraseDups_append ha, numberIn]

theorem toNat_numberIn (hsize : vs.eraseDups.length < UInt32.size) (ha : a ∈ vs) :
    (numberIn vs a).toNat = vs.eraseDups.idxOf a :=
  UInt32.toNat_ofNat_of_lt' ((idxOf_eraseDups_lt ha).trans hsize)

theorem numberIn_inj (hsize : vs.eraseDups.length < UInt32.size) (ha : a ∈ vs) (hb : b ∈ vs) :
    numberIn vs a = numberIn vs b ↔ a = b := by
  rw [← UInt32.toNat_inj, toNat_numberIn hsize ha, toNat_numberIn hsize hb,
    List.idxOf_inj (List.mem_eraseDups.2 ha)]

/-- Every number below the number of distinct values is the number of one of them. -/
theorem exists_numberIn {i : UInt32} (hi : i.toNat < vs.eraseDups.length) :
    ∃ a ∈ vs, numberIn vs a = i ∧ vs.eraseDups[i.toNat]? = some a := by
  refine ⟨vs.eraseDups[i.toNat], List.mem_eraseDups.1 (List.getElem_mem hi), ?_,
    List.getElem?_eq_getElem hi⟩
  rw [numberIn, (nodup_eraseDups vs).idxOf_getElem]
  exact UInt32.ofNat_toNat

end NumberIn

/-! ## What numbering a history comes to -/

/-- The answers `ids` to a history `vs` of requests, and the look-ups of the table that it leads to,
are a bijection between the values and the numbers below the size. -/
structure FirstSeen [DecidableEq α] (vs : List α) (ids : List UInt32) (size : Nat)
    (get : UInt32 → Except Fault α) (find? : α → Option UInt32) : Prop where
  /-- As many numbers are in use as there are distinct values. -/
  size_eq : size = vs.eraseDups.length
  /-- A value is numbered by its position among the first mentions. -/
  order : ids.map UInt32.toNat = vs.map vs.eraseDups.idxOf
  /-- The numbers in use are those below the size. -/
  dense : ∀ i, i ∈ ids ↔ i.toNat < size
  /-- Numbers lead back to the values they were given out for. -/
  back : List.Forall₂ (fun i v => get i = .ok v) ids vs
  /-- Equal values get equal numbers, and no others do. -/
  injective : ∀ j < vs.length, ∀ k < vs.length, ids[j]? = ids[k]? ↔ vs[j]? = vs[k]?
  /-- A look-up answers the number that was given out. -/
  found : ∀ a i, find? a = some i ↔ (i, a) ∈ ids.zip vs
  /-- A look-up answers the values seen and no others. -/
  seen : ∀ a, (find? a).isSome ↔ a ∈ vs
  /-- Numbers that are not in use are refused, by name. -/
  refused : ∀ i, size ≤ i.toNat ↔ get i = .error (.idOutOfRange i.toNat size)
  /-- Numbers in use are not refused. -/
  accepted : ∀ i, i.toNat < size ↔ ∃ v, get i = .ok v

/-! ## Interners and their histories -/

namespace Interner

variable [Ord β] [DecidableEq α] {key : β → α} {t : Interner β} {vs : List α}

/-- The interner has numbered the values of a history. Its entries stand for these values. -/
structure Numbers (key : β → α) (t : Interner β) (vs : List α) : Prop where
  room : vs.eraseDups.length < UInt32.size
  values : t.values.toList.map key = vs.eraseDups
  index : ∀ x, t.index[x]? = if key x ∈ vs then some (numberIn vs (key x)) else none
  /-- The index holds the entries of the row of values themselves. -/
  entry : ∀ x, t.index.getKey? x = t.values[vs.eraseDups.idxOf (key x)]?

theorem Numbers.size (h : t.Numbers key vs) : t.values.size = vs.eraseDups.length := by
  rw [← h.values, List.length_map, Array.length_toList]

theorem Numbers.get?_map (h : t.Numbers key vs) (i : UInt32) :
    (t.get? i).map key = vs.eraseDups[i.toNat]? := by
  rw [← h.values, List.getElem?_map, Array.getElem?_toList, get?]

theorem Numbers.get (h : t.Numbers key vs) (i : UInt32) :
    key <$> t.get i = match vs.eraseDups[i.toNat]? with
      | some a => .ok a
      | none => .error (.idOutOfRange i.toNat vs.eraseDups.length) := by
  have hget := h.get?_map i
  rw [← hget, ← h.size]
  unfold Interner.get Interner.get?
  cases t.values[i.toNat]? <;> rfl

/-- The history determines what can be seen of an interner. -/
theorem Numbers.firstSeen (h : t.Numbers key vs) (entry : α → β) (hentry : ∀ a, key (entry a) = a) :
    FirstSeen vs (vs.map (numberIn vs)) t.size (fun i => key <$> t.get i)
      fun a => t.find? (entry a) where
  size_eq := h.size
  order := by
    rw [List.map_map]
    exact List.map_congr_left fun a ha => toNat_numberIn h.room ha
  dense i := by
    rw [List.mem_map, Interner.size, h.size]
    constructor
    · rintro ⟨a, ha, rfl⟩
      rw [toNat_numberIn h.room ha]
      exact idxOf_eraseDups_lt ha
    · intro hi
      obtain ⟨a, ha, hai, -⟩ := exists_numberIn hi
      exact ⟨a, ha, hai⟩
  back := by
    rw [List.forall₂_map_left_iff, List.forall₂_same]
    intro a ha
    rw [h.get, toNat_numberIn h.room ha,
      List.getElem?_eq_getElem (idxOf_eraseDups_lt ha), List.getElem_idxOf]
  injective j hj k hk := by
    rw [List.getElem?_map, List.getElem?_map, List.getElem?_eq_getElem hj,
      List.getElem?_eq_getElem hk, Option.map_some, Option.map_some, Option.some_inj,
      Option.some_inj, numberIn_inj h.room (List.getElem_mem hj) (List.getElem_mem hk)]
  found a i := by
    have hzip : (vs.map (numberIn vs)).zip vs = vs.map fun a => (numberIn vs a, a) := by
      simpa using List.zip_map' (f := numberIn vs) (g := id) (l := vs)
    rw [Interner.find?, h.index, hentry, hzip, List.mem_map]
    simp only [Prod.mk.injEq, exists_eq_right_right]
    split <;> simp_all
  seen a := by
    rw [Interner.find?, h.index, hentry]
    split <;> simp_all
  refused i := by
    rw [h.get, Interner.size, h.size, ← List.getElem?_eq_none_iff]
    cases vs.eraseDups[i.toNat]? <;> simp
  accepted i := by
    rw [h.get, Interner.size, h.size, ← not_le, ← List.getElem?_eq_none_iff]
    cases vs.eraseDups[i.toNat]? <;> simp

variable [Std.TransOrd β]

theorem numbers_empty : (empty : Interner β).Numbers key [] where
  room := by simp
  values := by simp [empty]
  index x := by simp [empty]
  entry x := by simp [empty]

/-- A request for the value of `x` is answered by its number, unless the numbers are exhausted. -/
theorem Numbers.intern (hkey : ∀ x y : β, compare x y = .eq ↔ key x = key y)
    (h : t.Numbers key vs) (x : β) :
    if (vs ++ [key x]).eraseDups.length < UInt32.size then
      ∃ t', t.intern x = .ok (numberIn (vs ++ [key x]) (key x), t') ∧
        t'.Numbers key (vs ++ [key x])
    else t.intern x = .error .idsExhausted := by
  unfold Interner.intern
  rw [h.index]
  by_cases hx : key x ∈ vs
  · -- The value was seen before, and nothing changes.
    have hsame : (vs ++ [key x]).eraseDups = vs.eraseDups := by rw [eraseDups_concat, if_pos hx]
    have hmem : ∀ a, a ∈ vs ++ [key x] ↔ a ∈ vs := fun a => by
      rw [← List.mem_eraseDups, hsame, List.mem_eraseDups]
    have hnumber : ∀ a, numberIn (vs ++ [key x]) a = numberIn vs a := fun a => by
      rw [numberIn, hsame, numberIn]
    rw [if_pos hx, hsame, if_pos h.room, hnumber]
    refine ⟨t, rfl, ⟨hsame ▸ h.room, hsame ▸ h.values, fun y => ?_, hsame ▸ h.entry⟩⟩
    rw [h.index, hnumber]
    simp only [hmem]
  · have hmore : (vs ++ [key x]).eraseDups = vs.eraseDups ++ [key x] := by
      rw [eraseDups_concat, if_neg hx]
    have hlength : (vs ++ [key x]).eraseDups.length = t.values.size + 1 := by
      rw [hmore, List.length_append, h.size, List.length_singleton]
    have hnew : vs.eraseDups.idxOf (key x) = t.values.size := by
      rw [h.size, List.idxOf_of_notMem (mt List.mem_eraseDups.1 hx)]
    have hpos : (vs ++ [key x]).eraseDups.idxOf (key x) = t.values.size := by
      rw [hmore, List.idxOf_append_of_notMem (mt List.mem_eraseDups.1 hx), h.size]
      simp
    rw [if_neg hx, hlength]
    dsimp only
    split
    · next hroom =>
      refine ⟨_, by rw [numberIn, hpos], hlength ▸ hroom, ?_, fun y => ?_, fun y => ?_⟩
      · rw [Array.toList_push, List.map_append, h.values, hmore]
        rfl
      · rw [Std.TreeMap.getElem?_insert]
        by_cases hxy : key x = key y
        · rw [if_pos ((hkey x y).2 hxy), ← hxy, if_pos (by simp), numberIn, hpos]
        · rw [if_neg (mt (hkey x y).1 hxy), h.index]
          have hmem : key y ∈ vs ++ [key x] ↔ key y ∈ vs := by
            simp [Ne.symm hxy]
          simp only [hmem]
          split
          · next hy => rw [numberIn_append hy]
          · rfl
      · rw [Std.TreeMap.getKey?_insert, Array.getElem?_push]
        by_cases hxy : key x = key y
        · rw [if_pos ((hkey x y).2 hxy), ← hxy, hpos, if_pos rfl]
        · rw [if_neg (mt (hkey x y).1 hxy), h.entry]
          by_cases hy : key y ∈ vs
          · have hlt := idxOf_eraseDups_lt hy
            rw [idxOf_eraseDups_append hy, if_neg (by rw [h.size]; omega)]
          · have hout : ∀ ws : List α, key y ∉ ws → ws.eraseDups.idxOf (key y) =
                ws.eraseDups.length := fun ws hws =>
              List.idxOf_of_notMem (mt List.mem_eraseDups.1 hws)
            rw [hout vs hy, hout _ (by simp [hy, Ne.symm hxy]), hlength, if_neg (by omega),
              h.size]
            simp [h.size]
    · rfl

end Interner

/-! ## Histories of requests -/

/-- The answers to a history of requests. -/
def answers {τ : Type} (request : τ → α → Except Fault (UInt32 × τ)) (vs : List α) :
    StateT τ (Except Fault) (List UInt32) :=
  vs.mapM fun a t => request t a

/-- If one request is answered by the number of the value, so is a whole history of them. -/
theorem answers_eq [DecidableEq α] {τ : Type} {request : τ → α → Except Fault (UInt32 × τ)}
    {R : τ → List α → Prop}
    (step : ∀ t vs a, R t vs → (vs ++ [a]).eraseDups.length < UInt32.size →
      ∃ t', request t a = .ok (numberIn (vs ++ [a]) a, t') ∧ R t' (vs ++ [a]))
    {t : τ} {vs : List α} (h : R t vs) (ws : List α)
    (hroom : (vs ++ ws).eraseDups.length < UInt32.size) :
    ∃ t', (answers request ws).run t = .ok (ws.map (numberIn (vs ++ ws)), t') ∧
      R t' (vs ++ ws) := by
  induction ws generalizing t vs with
  | nil => exact ⟨t, rfl, by rwa [List.append_nil]⟩
  | cons a ws ih =>
    have happ : vs ++ a :: ws = vs ++ [a] ++ ws := by simp
    rw [happ] at hroom ⊢
    have hle := length_eraseDups_le_of_subset (List.subset_append_left (vs ++ [a]) ws)
    obtain ⟨t₁, hask, h₁⟩ := step t vs a h (hle.trans_lt hroom)
    obtain ⟨t₂, hrest, h₂⟩ := ih h₁ hroom
    refine ⟨t₂, ?_, h₂⟩
    have hfirst : numberIn (vs ++ [a] ++ ws) a = numberIn (vs ++ [a]) a :=
      numberIn_append (by simp) ws
    rw [answers, List.mapM_cons, List.map_cons, hfirst, StateT.run_bind]
    refine bind_eq_ok.2 ⟨_, hask, ?_⟩
    rw [StateT.run_bind]
    exact bind_eq_ok.2 ⟨_, hrest, rfl⟩

section Interners

variable [Ord α]

instance [Std.TransOrd α] : Std.TransOrd (Shared α) :=
  inferInstanceAs (Std.TransCmp (compareOn Shared.value))

theorem compare_shared [Std.LawfulEqOrd α] {x y : Shared α} :
    compare x y = .eq ↔ x.value = y.value :=
  Std.LawfulEqOrd.compare_eq_iff_eq (a := x.value)

variable [DecidableEq α]

/-- Every value is kept in one copy: the index and the row of values lead to the same place. -/
def SharedInterner.OneCopy (t : SharedInterner α) : Prop :=
  ∀ a i, t.find? a = some i →
    ∃ x, t.shared i = .ok x ∧ x.value = a ∧ t.handles.index.getKey? ⟨0, a⟩ = some x

theorem SharedInterner.oneCopy_of_numbers {t : SharedInterner α} {vs : List α}
    (h : t.handles.Numbers Shared.value vs) : t.OneCopy := by
  intro a i hi
  rw [find?, Interner.find?, h.index] at hi
  split at hi
  · next ha =>
    have hpos : i.toNat = vs.eraseDups.idxOf a :=
      Option.some.inj hi ▸ toNat_numberIn h.room ha
    have hvalue := h.get?_map i
    rw [hpos, List.getElem?_eq_getElem (idxOf_eraseDups_lt ha), List.getElem_idxOf,
      Option.map_eq_some_iff] at hvalue
    obtain ⟨x, hx, hxa⟩ := hvalue
    refine ⟨x, Interner.stored_eq_ok.2 hx, hxa, ?_⟩
    rw [h.entry, ← hpos]
    exact hx
  · cases hi

variable [Std.TransOrd α] [Std.LawfulEqOrd α]

theorem Interner.intern_numbers {t : Interner α} {vs : List α} {a : α} (h : t.Numbers id vs)
    (hroom : (vs ++ [a]).eraseDups.length < UInt32.size) :
    ∃ t', t.intern a = .ok (numberIn (vs ++ [a]) a, t') ∧ t'.Numbers id (vs ++ [a]) := by
  have hstep := h.intern (fun _ _ => Std.LawfulEqOrd.compare_eq_iff_eq) a
  rw [if_pos hroom] at hstep
  exact hstep

theorem Interner.intern_full {t : Interner α} {vs : List α} {a : α} (h : t.Numbers id vs)
    (hfull : ¬ (vs ++ [a]).eraseDups.length < UInt32.size) :
    t.intern a = .error .idsExhausted := by
  have hstep := h.intern (fun _ _ => Std.LawfulEqOrd.compare_eq_iff_eq) a
  rwa [if_neg hfull] at hstep

theorem SharedInterner.intern_numbers {t : SharedInterner α} {vs : List α} {a : α}
    (h : t.handles.Numbers Shared.value vs)
    (hroom : (vs ++ [a]).eraseDups.length < UInt32.size) :
    ∃ t', t.intern a = .ok (numberIn (vs ++ [a]) a, t') ∧
      t'.handles.Numbers Shared.value (vs ++ [a]) := by
  have hstep := h.intern (fun _ _ => compare_shared) ⟨t.size, a⟩
  rw [if_pos hroom] at hstep
  obtain ⟨handles, hask, hhandles⟩ := hstep
  exact ⟨⟨handles⟩, bind_eq_ok.2 ⟨_, hask, rfl⟩, hhandles⟩

theorem SharedInterner.intern_full {t : SharedInterner α} {vs : List α} {a : α}
    (h : t.handles.Numbers Shared.value vs)
    (hfull : ¬ (vs ++ [a]).eraseDups.length < UInt32.size) :
    t.intern a = .error .idsExhausted := by
  have hstep := h.intern (fun _ _ => compare_shared) ⟨t.size, a⟩
  rw [if_neg hfull] at hstep
  rw [intern, hstep]
  rfl

/-- Both kinds of interners answer every history by the same numbers, and these number the distinct
values in the order of their first occurrence. The history may be cut short at any `n`: the numbers
given out until then stay what they were, and lead back to the same values, whatever comes later. -/
theorem interners_firstSeen (vs : List α) (hroom : vs.eraseDups.length < UInt32.size) :
    ∃ ids : List UInt32, ids.length = vs.length ∧ ∀ n, ∃ t u,
      (answers Interner.intern (vs.take n)).run .empty = .ok (ids.take n, t) ∧
      (answers SharedInterner.intern (vs.take n)).run .empty = .ok (ids.take n, u) ∧
      FirstSeen (vs.take n) (ids.take n) t.size t.get t.find? ∧
      FirstSeen (vs.take n) (ids.take n) u.size u.get u.find? ∧ u.OneCopy := by
  refine ⟨vs.map (numberIn vs), List.length_map _, fun n => ?_⟩
  -- The numbers of the values so far are those of the whole history.
  have hids : (vs.map (numberIn vs)).take n = (vs.take n).map (numberIn (vs.take n)) := by
    rw [← List.map_take]
    refine List.map_congr_left fun a ha => ?_
    conv_lhs => rw [← List.take_append_drop n vs, numberIn_append ha]
  have hroom' : ([] ++ vs.take n).eraseDups.length < UInt32.size := by
    refine lt_of_le_of_lt ?_ hroom
    conv_rhs => rw [← List.take_append_drop n vs]
    exact length_eraseDups_le_of_subset (List.subset_append_left _ _)
  obtain ⟨t, ht, htn⟩ := answers_eq (R := fun (t : Interner α) vs => t.Numbers id vs)
    (fun _ _ _ h hroom => Interner.intern_numbers h hroom) Interner.numbers_empty _ hroom'
  obtain ⟨u, hu, hun⟩ := answers_eq
    (R := fun (t : SharedInterner α) vs => t.handles.Numbers Shared.value vs)
    (fun _ _ _ h hroom => SharedInterner.intern_numbers h hroom)
    (t := SharedInterner.empty) Interner.numbers_empty _ hroom'
  rw [List.nil_append] at ht htn hu hun
  rw [hids]
  have htseen := htn.firstSeen id fun _ => rfl
  simp only [id_map] at htseen
  exact ⟨t, u, ht, hu, htseen, hun.firstSeen (fun a => ⟨0, a⟩) fun _ => rfl,
    SharedInterner.oneCopy_of_numbers hun⟩

theorem interners_firstSeen_words :
    ["b", "a", "b", "c", "a"].eraseDups.length < UInt32.size ∧
      ∃ ids : List UInt32, ids.length = 5 ∧ ∀ n, ∃ t u,
        (answers Interner.intern (["b", "a", "b", "c", "a"].take n)).run .empty =
          .ok (ids.take n, t) ∧
        (answers SharedInterner.intern (["b", "a", "b", "c", "a"].take n)).run .empty =
          .ok (ids.take n, u) ∧
        FirstSeen (["b", "a", "b", "c", "a"].take n) (ids.take n) t.size t.get t.find? ∧
        FirstSeen (["b", "a", "b", "c", "a"].take n) (ids.take n) u.size u.get u.find? ∧
        u.OneCopy :=
  ⟨by decide, interners_firstSeen ["b", "a", "b", "c", "a"] (by decide)⟩

end Interners

end Tabulation
