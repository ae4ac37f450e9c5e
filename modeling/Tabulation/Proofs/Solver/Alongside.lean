import Tabulation.Proofs.Outcome
import Tabulation.Proofs.Tables

/-!
# Programs that run alongside each other

To compare two runs of a solver, their programs are compared piece by piece. `Follows m s m' t Q`
says that `m` can follow `m'`: whenever `m'` returns from `t`, so does `m` from `s`, and then `Q`
relates what they give and the states that they leave. If `m'` runs out of numbers for names, so
does `m`. The rules have the shape of programs.

**Queues.** The run that follows may have additional work queued. `Padded R P k l l'` says that `l`
is `l'`, element by element in relation `R`, with `k` elements put in that satisfy `P`. Taking the
next item of a padded queue gives one of those, or what the other run takes, `Worklist.pop?_padded`.
-/

namespace Tabulation

variable {σ ε α β γ δ : Type}

theorem run_get_seq {f : σ → StateT σ (Except ε) α} (s : σ) :
    (get >>= f).run s = (f s).run s := rfl

theorem run_modify_seq {g : σ → σ} {f : PUnit → StateT σ (Except ε) α} (s : σ) :
    (modify g >>= f).run s = (f ⟨⟩).run (g s) := rfl

theorem run_ok_seq {x : Except ε α} {a : α} {f : α → StateT σ (Except ε) β} (hx : x = .ok a)
    (s : σ) : (liftM x >>= f).run s = (f a).run s := by
  subst hx
  rfl

theorem run_seq {m : StateT σ (Except ε) α} {f : α → StateT σ (Except ε) β} {a : α} {s s' : σ}
    (h : m.run s = .ok (a, s')) : (m >>= f).run s = (f a).run s' := by
  rw [StateT.run_bind, h]
  rfl

/-- Whenever `m'` returns from `t`, so does `m` from `s`, and `Q` holds of the outcomes. If `m'`
runs out of numbers, so does `m`. -/
structure Follows (m : StateT σ (Except Fault) α) (s : σ) (m' : StateT σ (Except Fault) β) (t : σ)
    (Q : α → β → σ → σ → Prop) : Prop where
  returns : ∀ b t', m'.run t = .ok (b, t') → ∃ a s', m.run s = .ok (a, s') ∧ Q a b s' t'
  exhausted : m'.run t = .error .idsExhausted → m.run s = .error .idsExhausted

namespace Follows

variable {m : StateT σ (Except Fault) α} {m' : StateT σ (Except Fault) β} {s t : σ}
  {P Q : α → β → σ → σ → Prop}

/-- It suffices to look at one outcome of `m'`. -/
theorem of_ok {a : α} {b : β} {s' t' : σ} (hm' : m'.run t = .ok (b, t'))
    (hm : m.run s = .ok (a, s')) (hQ : Q a b s' t') : Follows m s m' t Q where
  returns b' t'' hrun := by
    obtain ⟨rfl, rfl⟩ := Prod.mk.inj (Except.ok.inj (hm'.symm.trans hrun))
    exact ⟨a, s', hm, hQ⟩
  exhausted hrun := by
    rw [hm'] at hrun
    cases hrun

theorem imp (h : Follows m s m' t P) (hPQ : ∀ a b s' t', P a b s' t' → Q a b s' t') :
    Follows m s m' t Q where
  returns b t' hrun := by
    obtain ⟨a, s', hrun', hP⟩ := h.returns b t' hrun
    exact ⟨a, s', hrun', hPQ a b s' t' hP⟩
  exhausted := h.exhausted

theorem pure {a : α} {b : β} (h : Q a b s t) :
    Follows (pure a : StateT σ (Except Fault) α) s (pure b) t Q :=
  of_ok rfl rfl h

/-- What the programs did may be used for what follows. -/
theorem runs (h : Follows m s m' t P) : Follows m s m' t fun a b s' t' =>
    P a b s' t' ∧ m.run s = .ok (a, s') ∧ m'.run t = .ok (b, t') where
  returns b t' hrun := by
    obtain ⟨a, s', hrun', hP⟩ := h.returns b t' hrun
    exact ⟨a, s', hrun', hP, hrun', hrun⟩
  exhausted := h.exhausted

theorem congr_left {m₁ : StateT σ (Except Fault) α} {s₁ : σ} (hrun : m.run s = m₁.run s₁)
    (h : Follows m₁ s₁ m' t Q) : Follows m s m' t Q where
  returns b t' hb := by
    obtain ⟨a, s', ha, hQ⟩ := h.returns b t' hb
    exact ⟨a, s', hrun.trans ha, hQ⟩
  exhausted hb := hrun.trans (h.exhausted hb)

theorem seq {f : α → StateT σ (Except Fault) γ} {f' : β → StateT σ (Except Fault) δ}
    {R : γ → δ → σ → σ → Prop} (h : Follows m s m' t P)
    (hf : ∀ a b s' t', P a b s' t' → Follows (f a) s' (f' b) t' R) :
    Follows (m >>= f) s (m' >>= f') t R where
  returns c t'' hrun := by
    obtain ⟨b, t', hm', hf'⟩ := run_bind_ok hrun
    obtain ⟨a, s', hm, hP⟩ := h.returns b t' hm'
    obtain ⟨d, s'', hfa, hR⟩ := (hf a b s' t' hP).returns c t'' hf'
    exact ⟨d, s'', (run_seq hm).trans hfa, hR⟩
  exhausted hrun := by
    cases hm' : m'.run t with
    | error e =>
      rw [StateT.run_bind, hm'] at hrun
      obtain rfl := Except.error.inj hrun
      rw [StateT.run_bind, h.exhausted hm']
      rfl
    | ok r =>
      obtain ⟨a, s', hm, hP⟩ := h.returns r.1 r.2 hm'
      rw [run_seq hm'] at hrun
      rw [run_seq hm]
      exact (hf a r.1 s' r.2 hP).exhausted hrun

/-- A computation that does not look at the state has the same outcome in both. -/
theorem lift {x : Except Fault α} {Q : α → α → σ → σ → Prop} (h : ∀ a, x = .ok a → Q a a s t) :
    Follows (liftM x : StateT σ (Except Fault) α) s (liftM x) t Q := by
  cases x with
  | ok a => exact of_ok rfl rfl (h a rfl)
  | error e => exact ⟨nofun, id⟩

section Seq

variable {R : γ → δ → σ → σ → Prop}

theorem lift_seq {x : Except Fault α} {f : α → StateT σ (Except Fault) γ}
    {f' : α → StateT σ (Except Fault) δ} (h : ∀ a, x = .ok a → Follows (f a) s (f' a) t R) :
    Follows (liftM x >>= f) s (liftM x >>= f') t R := by
  refine (lift (Q := fun a b s' t' => a = b ∧ x = .ok a ∧ s' = s ∧ t' = t)
    fun a ha => ⟨rfl, ha, rfl, rfl⟩).seq ?_
  rintro a _ _ _ ⟨rfl, ha, rfl, rfl⟩
  exact h a ha

theorem get_seq {f : σ → StateT σ (Except Fault) γ} {f' : σ → StateT σ (Except Fault) δ}
    (h : Follows (f s) s (f' t) t R) : Follows (get >>= f) s (get >>= f') t R :=
  ⟨h.returns, h.exhausted⟩

theorem modify_seq {g g' : σ → σ} {f : PUnit → StateT σ (Except Fault) γ}
    {f' : PUnit → StateT σ (Except Fault) δ} (h : Follows (f ⟨⟩) (g s) (f' ⟨⟩) (g' t) R) :
    Follows (modify g >>= f) s (modify g' >>= f') t R :=
  ⟨h.returns, h.exhausted⟩

end Seq

theorem modify_end {g g' : σ → σ} {Q : PUnit → PUnit → σ → σ → Prop} (h : Q ⟨⟩ ⟨⟩ (g s) (g' t)) :
    Follows (modify g : StateT σ (Except Fault) PUnit) s (modify g') t Q :=
  of_ok rfl rfl h

/-- Two loops over related lists, with an invariant. -/
theorem forM {f : α → StateT σ (Except Fault) PUnit} {f' : β → StateT σ (Except Fault) PUnit}
    {R : α → β → Prop} (I : σ → σ → Prop) {l : List α} {l' : List β} (hl : List.Forall₂ R l l')
    (hI : I s t)
    (hf : ∀ a b, a ∈ l → b ∈ l' → R a b → ∀ s' t', I s' t' →
      Follows (f a) s' (f' b) t' fun _ _ => I) :
    Follows (l.forM f) s (l'.forM f') t fun _ _ => I := by
  induction hl generalizing s t with
  | nil => exact pure hI
  | cons hab _ ih =>
    refine (hf _ _ (by simp) (by simp) hab s t hI).seq fun _ _ s' t' hI' => ih hI' ?_
    exact fun a b ha hb => hf a b (List.mem_cons_of_mem _ ha) (List.mem_cons_of_mem _ hb)

/-- Two loops over the same list. -/
theorem forM_same {f f' : α → StateT σ (Except Fault) PUnit} (I : σ → σ → Prop) {l : List α}
    (hI : I s t) (hf : ∀ a ∈ l, ∀ s' t', I s' t' → Follows (f a) s' (f' a) t' fun _ _ => I) :
    Follows (l.forM f) s (l.forM f') t fun _ _ => I :=
  forM (R := Eq) I (List.forall₂_refl l) hI fun a _ ha _ hab => hab ▸ hf a ha

end Follows

theorem rel_imp_of_eq {R R' : α → β → Prop} {a : Option α} {b : Option β} (h : Option.Rel R a b)
    (hR : ∀ x y, a = some x → b = some y → R x y → R' x y) : Option.Rel R' a b := by
  cases h with
  | none => exact .none
  | some h => exact .some (hR _ _ rfl rfl h)

theorem rel_imp {R R' : α → β → Prop} {a : Option α} {b : Option β} (h : Option.Rel R a b)
    (hR : ∀ x y, R x y → R' x y) : Option.Rel R' a b :=
  rel_imp_of_eq h fun x y _ _ => hR x y

/-- Related lists have related members. -/
theorem forall₂_mem {R : α → β → Prop} {l : List α} {l' : List β} (h : List.Forall₂ R l l') :
    List.Forall₂ (fun a b => a ∈ l ∧ b ∈ l' ∧ R a b) l l' := by
  induction h with
  | nil => exact .nil
  | cons hab _ ih =>
    refine .cons ⟨List.mem_cons_self, List.mem_cons_self, hab⟩ (ih.imp fun _ _ h => ?_)
    exact ⟨List.mem_cons_of_mem _ h.1, List.mem_cons_of_mem _ h.2.1, h.2.2⟩

/-- A test that fails once more often. -/
theorem countP_succ_le {p q : α → Bool} {l : List α} (hpq : ∀ a, p a = true → q a = true) {a : α}
    (ha : a ∈ l) (hq : q a = true) (hp : p a = false) : l.countP p + 1 ≤ l.countP q := by
  induction l with
  | nil => cases ha
  | cons b l ih =>
    have hle : l.countP p ≤ l.countP q := List.countP_mono_left fun x _ => hpq x
    rw [List.countP_cons, List.countP_cons]
    rcases List.mem_cons.1 ha with rfl | ha
    · rw [if_pos hq, if_neg (by simp [hp])]
      exact Nat.succ_le_succ hle
    · have := ih ha
      by_cases hb : p b = true
      · rw [if_pos hb, if_pos (hpq b hb)]
        exact Nat.succ_le_succ this
      · rw [if_neg hb]
        exact Nat.le_trans this (Nat.le_add_right _ _)

theorem forall₂_getElem? {R : α → β → Prop} {l : List α} {l' : List β} {i : Nat} {b : β}
    (h : List.Forall₂ R l l') (hb : l'[i]? = some b) : ∃ a, l[i]? = some a ∧ R a b := by
  induction h generalizing i with
  | nil => simp at hb
  | cons hab _ ih =>
    cases i with
    | zero =>
      obtain rfl := Option.some.inj hb
      exact ⟨_, rfl, hab⟩
    | succ i => exact ih hb

/-! ## Padded lists -/

/-- The first list is the second one up to `R`, with `k` elements put in that satisfy `P`. -/
inductive Padded (R : α → β → Prop) (P : α → Prop) : Nat → List α → List β → Prop
  | nil : Padded R P 0 [] []
  | keep {k : Nat} {a : α} {b : β} {l : List α} {l' : List β} : R a b → Padded R P k l l' →
      Padded R P k (a :: l) (b :: l')
  | pad {k : Nat} {a : α} {l : List α} {l' : List β} : P a → Padded R P k l l' →
      Padded R P (k + 1) (a :: l) l'

namespace Padded

variable {R R' : α → β → Prop} {P P' : α → Prop} {k : Nat} {l : List α} {l' : List β}

theorem imp (h : Padded R P k l l') (hR : ∀ a b, a ∈ l → b ∈ l' → R a b → R' a b)
    (hP : ∀ a, P a → P' a) : Padded R' P' k l l' := by
  induction h with
  | nil => exact .nil
  | keep hab _ ih =>
    refine .keep (hR _ _ (by simp) (by simp) hab) (ih fun a b ha hb => ?_)
    exact hR a b (List.mem_cons_of_mem _ ha) (List.mem_cons_of_mem _ hb)
  | pad ha _ ih => exact .pad (hP _ ha) (ih fun a b ha => hR a b (List.mem_cons_of_mem _ ha))

theorem append {j : Nat} {m : List α} {m' : List β} (h : Padded R P k l l')
    (hm : Padded R P j m m') : Padded R P (k + j) (l ++ m) (l' ++ m') := by
  induction h with
  | nil => rwa [Nat.zero_add]
  | keep hab _ ih => exact .keep hab ih
  | @pad k _ _ _ ha _ ih =>
    rw [Nat.add_right_comm]
    exact .pad ha ih

theorem push {a : α} {b : β} (h : Padded R P k l l') (hab : R a b) :
    Padded R P k (l ++ [a]) (l' ++ [b]) := h.append (.keep hab .nil)

theorem push_pad {a : α} (h : Padded R P k l l') (ha : P a) : Padded R P (k + 1) (l ++ [a]) l' := by
  have := h.append (.pad ha .nil)
  rwa [List.append_nil] at this

theorem exists_of_mem {b : β} (h : Padded R P k l l') (hb : b ∈ l') : ∃ a ∈ l, R a b := by
  induction h with
  | nil => cases hb
  | keep hab _ ih =>
    rcases List.mem_cons.1 hb with rfl | hb
    · exact ⟨_, List.mem_cons_self, hab⟩
    · exact (ih hb).imp fun _ h => ⟨List.mem_cons_of_mem _ h.1, h.2⟩
  | pad _ _ ih => exact (ih hb).imp fun _ h => ⟨List.mem_cons_of_mem _ h.1, h.2⟩

theorem of_cons {a : α} (h : Padded R P k (a :: l) l') :
    (∃ b r, l' = b :: r ∧ R a b ∧ Padded R P k l r) ∨
      P a ∧ ∃ j, k = j + 1 ∧ Padded R P j l l' := by
  cases h with
  | keep hab h => exact .inl ⟨_, _, rfl, hab, h⟩
  | pad ha h => exact .inr ⟨ha, _, rfl, h⟩

theorem of_snoc {a : α} (h : Padded R P k (l ++ [a]) l') :
    (∃ b r, l' = r ++ [b] ∧ R a b ∧ Padded R P k l r) ∨
      P a ∧ ∃ j, k = j + 1 ∧ Padded R P j l l' := by
  induction l generalizing k l' with
  | nil =>
    rcases of_cons h with ⟨b, r, rfl, hab, hr⟩ | ⟨ha, j, rfl, hj⟩
    · cases hr
      exact .inl ⟨b, [], rfl, hab, .nil⟩
    · exact .inr ⟨ha, j, rfl, hj⟩
  | cons x l ih =>
    rcases of_cons h with ⟨y, r, rfl, hxy, hr⟩ | ⟨hx, j, rfl, hj⟩
    · rcases ih hr with ⟨b, r', rfl, hab, hr'⟩ | ⟨ha, i, rfl, hi⟩
      · exact .inl ⟨b, y :: r', rfl, hab, .keep hxy hr'⟩
      · exact .inr ⟨ha, i, rfl, .keep hxy hi⟩
    · rcases ih hj with ⟨b, r', rfl, hab, hr'⟩ | ⟨ha, i, rfl, hi⟩
      · exact .inl ⟨b, r', rfl, hab, .pad hx hr'⟩
      · exact .inr ⟨ha, i + 1, rfl, .pad hx hi⟩

theorem eq_zero (h : Padded R P k l l') (hP : ∀ a, ¬ P a) : k = 0 := by
  induction h with
  | nil => rfl
  | keep _ _ ih => exact ih
  | pad ha _ _ => exact absurd ha (hP _)

theorem eq_nil (h : Padded R P k [] l') : l' = [] := by
  cases h
  rfl

theorem eq_nil_iff (h : Padded R P 0 l l') : l = [] ↔ l' = [] := by
  cases h with
  | nil => exact iff_of_true rfl rfl
  | keep _ _ => exact iff_of_false (List.cons_ne_nil _ _) (List.cons_ne_nil _ _)

end Padded

/-! ## Padded queues -/

namespace Worklist

variable {w : Worklist α}

theorem order_pop? {w' : Worklist α} {a : α} (h : w.pop? = some (a, w')) : w'.order = w.order := by
  unfold pop? popNewest popOldest at h
  grind

/-- The item that is taken is at the end that belongs to the order. -/
theorem toList_pop? {w' : Worklist α} {a : α} (h : w.pop? = some (a, w')) :
    match w.order with
    | .lifo => w.toList = w'.toList ++ [a]
    | .fifo => w.toList = a :: w'.toList := by
  unfold pop? at h
  cases horder : w.order with
  | lifo =>
    rw [horder] at h
    exact toList_popNewest h
  | fifo =>
    rw [horder] at h
    exact toList_popOldest h

/-- An item of the order at its end is the one that is taken. -/
theorem pop?_eq_some (w : Worklist α) {a : α} {l : List α}
    (h : match w.order with
      | .lifo => w.toList = l ++ [a]
      | .fifo => w.toList = a :: l) : ∃ w', w.pop? = some (a, w') ∧ w'.toList = l := by
  cases hpop : w.pop? with
  | none =>
    rw [(pop?_eq_none_iff w).1 hpop] at h
    split at h <;> simp at h
  | some r =>
    obtain ⟨b, w'⟩ := r
    have hb := toList_pop? hpop
    split at h
    · next horder =>
      rw [horder, h] at hb
      obtain ⟨hl, hab⟩ := List.append_inj' hb rfl
      obtain rfl := List.singleton_inj.1 hab
      exact ⟨w', rfl, hl.symm⟩
    · next horder =>
      rw [horder, h] at hb
      obtain ⟨rfl, hl⟩ := List.cons.inj hb
      exact ⟨w', rfl, hl.symm⟩

/-- The next item of a padded queue is put in, or it is the next item of the other queue. -/
theorem pop?_padded {R : α → β → Prop} {P : α → Prop} {k : Nat} {w : Worklist α} {v : Worklist β}
    (h : Padded R P k w.toList v.toList) (horder : w.order = v.order) {a : α} {w' : Worklist α}
    (hpop : w.pop? = some (a, w')) :
    (∃ b v', v.pop? = some (b, v') ∧ R a b ∧ Padded R P k w'.toList v'.toList) ∨
      P a ∧ ∃ j, k = j + 1 ∧ Padded R P j w'.toList v.toList := by
  have ha := toList_pop? hpop
  split at ha
  · next hlifo =>
    rw [ha] at h
    refine h.of_snoc.imp_left fun ⟨b, r, hv, hab, hr⟩ => ?_
    obtain ⟨v', hv', rfl⟩ := v.pop?_eq_some (a := b) (l := r) (by rw [← horder, hlifo]; exact hv)
    exact ⟨b, v', hv', hab, hr⟩
  · next hfifo =>
    rw [ha] at h
    refine h.of_cons.imp_left fun ⟨b, r, hv, hab, hr⟩ => ?_
    obtain ⟨v', hv', rfl⟩ := v.pop?_eq_some (a := b) (l := r) (by rw [← horder, hfifo]; exact hv)
    exact ⟨b, v', hv', hab, hr⟩

end Worklist

/-! ## Tables with the same keys -/

section Tables

variable {κ : Type} [Ord κ] [Std.TransOrd κ] [Std.LawfulEqOrd κ]

/-- Two lists in the order of their keys that have the same keys. -/
theorem forall₂_of_ascending {R : α → β → Prop} {l : List (κ × α)} {l' : List (κ × β)}
    (hl : l.Pairwise fun x y => compare x.1 y.1 = .lt)
    (hl' : l'.Pairwise fun x y => compare x.1 y.1 = .lt)
    (hright : ∀ x ∈ l, ∃ y ∈ l', x.1 = y.1 ∧ R x.2 y.2)
    (hleft : ∀ y ∈ l', ∃ x ∈ l, x.1 = y.1 ∧ R x.2 y.2) :
    List.Forall₂ (fun x y => x.1 = y.1 ∧ R x.2 y.2) l l' := by
  induction l generalizing l' with
  | nil =>
    cases l' with
    | nil => exact .nil
    | cons y l' => cases (hleft y List.mem_cons_self).choose_spec.1
  | cons x l ih =>
    cases l' with
    | nil => cases (hright x List.mem_cons_self).choose_spec.1
    | cons y l' =>
      obtain ⟨hx, hl⟩ := List.pairwise_cons.1 hl
      obtain ⟨hy, hl'⟩ := List.pairwise_cons.1 hl'
      have hirrefl : ∀ k : κ, compare k k ≠ .lt := fun k => by simp
      -- The first keys are the least ones, so they are the same.
      have hkey : x.1 = y.1 := by
        obtain ⟨y', hy', heq, -⟩ := hright x List.mem_cons_self
        rcases List.mem_cons.1 hy' with rfl | hy'
        · exact heq
        obtain ⟨x', hx', heq', -⟩ := hleft y List.mem_cons_self
        rcases List.mem_cons.1 hx' with rfl | hx'
        · exact heq'
        have h₁ := hy y' hy'
        have h₂ := hx x' hx'
        rw [← heq] at h₁
        rw [heq'] at h₂
        exact absurd (Std.TransCmp.lt_trans h₁ h₂) (hirrefl _)
      refine .cons ?_ (ih hl hl' (fun x' hx' => ?_) fun y' hy' => ?_)
      · obtain ⟨y', hy', heq, hR⟩ := hright x List.mem_cons_self
        rcases List.mem_cons.1 hy' with rfl | hy'
        · exact ⟨heq, hR⟩
        · have := hy y' hy'
          rw [← heq, hkey] at this
          exact absurd this (hirrefl _)
      · obtain ⟨y', hy', heq, hR⟩ := hright x' (List.mem_cons_of_mem _ hx')
        rcases List.mem_cons.1 hy' with rfl | hy'
        · have := hx x' hx'
          rw [heq, hkey] at this
          exact absurd this (hirrefl _)
        · exact ⟨y', hy', heq, hR⟩
      · obtain ⟨x', hx', heq, hR⟩ := hleft y' (List.mem_cons_of_mem _ hy')
        rcases List.mem_cons.1 hx' with rfl | hx'
        · have := hy y' hy'
          rw [← heq, hkey] at this
          exact absurd this (hirrefl _)
        · exact ⟨x', hx', heq, hR⟩

theorem rel_eq_some {R : α → β → Prop} {a : Option α} {b : Option β} (h : Option.Rel R a b) :
    (∀ x, a = some x → ∃ y, b = some y ∧ R x y) ∧ ∀ y, b = some y → ∃ x, a = some x ∧ R x y := by
  cases h with
  | none => exact ⟨nofun, nofun⟩
  | some h =>
    constructor
    · rintro _ ⟨⟩
      exact ⟨_, rfl, h⟩
    · rintro _ ⟨⟩
      exact ⟨_, rfl, h⟩

/-- Maps with related values have related lists of entries. -/
theorem toList_rel {R : α → β → Prop} {t : Std.TreeMap κ α} {t' : Std.TreeMap κ β}
    (h : ∀ k : κ, Option.Rel R t[k]? t'[k]?) :
    List.Forall₂ (fun x y => x.1 = y.1 ∧ R x.2 y.2) t.toList t'.toList := by
  refine forall₂_of_ascending Std.TreeMap.ordered_keys_toList Std.TreeMap.ordered_keys_toList
    (fun x hx => ?_) fun y hy => ?_
  · have hx := Std.TreeMap.mem_toList_iff_getElem?_eq_some.1 hx
    obtain ⟨b, hb, hR⟩ := (rel_eq_some (h x.1)).1 x.2 hx
    exact ⟨(x.1, b), Std.TreeMap.mem_toList_iff_getElem?_eq_some.2 hb, rfl, hR⟩
  · have hy := Std.TreeMap.mem_toList_iff_getElem?_eq_some.1 hy
    obtain ⟨a, ha, hR⟩ := (rel_eq_some (h y.1)).2 y.2 hy
    exact ⟨(y.1, a), Std.TreeMap.mem_toList_iff_getElem?_eq_some.2 ha, rfl, hR⟩

end Tables

/-- The path edges at a node of two tables. -/
theorem PathTable.entries_rel {R : EdgeRef → EdgeRef → Prop} {t t' : PathTable} {n : NodeId}
    (h : ∀ a b, Option.Rel R (t.get? n a b) (t'.get? n a b)) :
    List.Forall₂ (fun x y => x.1 = y.1 ∧ x.2.1 = y.2.1 ∧ R x.2.2 y.2.2) (t.entries n)
      (t'.entries n) := by
  unfold entries
  rw [List.forall₂_map_left_iff, List.forall₂_map_right_iff]
  refine (toList_rel (R := R) fun key => ?_).imp fun x y hxy => ?_
  · have hkey := h ⟨(unpack key).1⟩ ⟨(unpack key).2⟩
    simpa only [get?_eq_getD, factPair, pack_unpack] using hkey
  · exact ⟨congrArg (fun k => (unpackFacts k).1) hxy.1, congrArg (fun k => (unpackFacts k).2) hxy.1,
      hxy.2⟩

theorem PathTable.targetsOf_rel {R : EdgeRef → EdgeRef → Prop} {t t' : PathTable} {n : NodeId}
    (h : ∀ a b, Option.Rel R (t.get? n a b) (t'.get? n a b)) (a : FactId) :
    List.Forall₂ (fun x y => x.1 = y.1 ∧ R x.2 y.2) (t.targetsOf n a) (t'.targetsOf n a) := by
  unfold targetsOf
  rw [List.forall₂_map_left_iff, List.forall₂_map_right_iff]
  refine (List.rel_filter (fun x y hxy => ?_) (entries_rel h)).imp fun x y hxy => hxy.2
  dsimp only
  rw [hxy.1]

theorem SummaryTable.leaving_rel {R : EdgeRef → EdgeRef → Prop} {t t' : SummaryTable} {p : ProcId}
    {e : FactId} (h : ∀ x d, Option.Rel R (t.get? p e x d) (t'.get? p e x d)) (x : NodeId) :
    List.Forall₂ (fun x y => x.1 = y.1 ∧ R x.2 y.2) (t.leaving p e x) (t'.leaving p e x) := by
  refine List.rel_filterMap (fun y z hyz => ?_) (toList_rel (R := R) fun key => ?_)
  · dsimp only
    rw [hyz.1]
    split
    · exact .some ⟨rfl, hyz.2⟩
    · exact .none
  · have hkey := h ⟨(unpack key).1⟩ ⟨(unpack key).2⟩
    simpa only [get?, pack_unpack] using hkey

/-- A set with some of the members of another one lists them in the same order. -/
theorem toList_eq_filter {κ : Type} [Ord κ] [Std.TransOrd κ] [Std.LawfulEqOrd κ]
    {s t : Std.TreeSet κ} {p : κ → Bool}
    (h : ∀ k, s.contains k = true ↔ t.contains k = true ∧ p k = true) :
    s.toList = t.toList.filter p := by
  have hnodup : ∀ t : Std.TreeSet κ, t.toList.Nodup := fun t =>
    Std.TreeSet.distinct_toList.imp fun hne heq => hne (by simp [heq])
  refine List.Perm.eq_of_pairwise (fun x y _ _ hxy hyx => ?_) Std.TreeSet.ordered_toList
    (Std.TreeSet.ordered_toList.filter p) ?_
  · have hlt : compare x x = .lt := Std.TransCmp.lt_trans hxy hyx
    simp at hlt
  · refine (List.perm_ext_iff_of_nodup (hnodup s) ((hnodup t).filter p)).2 fun k => ?_
    simpa [Std.TreeSet.mem_toList] using h k

/-! ## Computations without a state -/

section Matches

variable {ε α β γ δ : Type} {x : Except ε α} {y : Except ε β} {R : α → β → Prop}

/-- Whenever the second computation returns, so does the first, and `R` relates what they give. -/
def Matches (x : Except ε α) (y : Except ε β) (R : α → β → Prop) : Prop :=
  ∀ b, y = .ok b → ∃ a, x = .ok a ∧ R a b

namespace Matches

theorem ok {a : α} {b : β} (h : R a b) : Matches (.ok a : Except ε α) (.ok b : Except ε β) R := by
  rintro _ ⟨⟩
  exact ⟨a, rfl, h⟩

theorem bind {f : α → Except ε γ} {g : β → Except ε δ} {S : γ → δ → Prop} (h : Matches x y R)
    (hf : ∀ a b, R a b → Matches (f a) (g b) S) : Matches (x >>= f) (y >>= g) S := by
  intro d hd
  obtain ⟨b, hb, hd⟩ := bind_eq_ok.1 hd
  obtain ⟨a, ha, hR⟩ := h b hb
  obtain ⟨c, hc, hS⟩ := hf a b hR d hd
  exact ⟨c, bind_eq_ok.2 ⟨a, ha, hc⟩, hS⟩

/-- Both begin with the same computation. -/
theorem same {f : α → Except ε γ} {g : α → Except ε δ} {S : γ → δ → Prop}
    (hf : ∀ a, x = .ok a → Matches (f a) (g a) S) : Matches (x >>= f) (x >>= g) S := by
  intro d hd
  obtain ⟨a, ha, hd⟩ := bind_eq_ok.1 hd
  obtain ⟨c, hc, hS⟩ := hf a ha d hd
  exact ⟨c, bind_eq_ok.2 ⟨a, ha, hc⟩, hS⟩

theorem foldlM {P : γ → δ → Prop} {f : α → γ → Except ε α} {g : β → δ → Except ε β} {l' : List γ}
    {l : List δ} (hl : List.Forall₂ P l' l)
    (hf : ∀ c d, d ∈ l → P c d → ∀ a b, R a b → Matches (f a c) (g b d) R) {a : α} {b : β}
    (h : R a b) : Matches (l'.foldlM f a) (l.foldlM g b) R := by
  induction hl generalizing a b with
  | nil => exact ok h
  | @cons c d l' l hcd _ ih =>
    rw [List.foldlM_cons, List.foldlM_cons]
    refine (hf c d List.mem_cons_self hcd a b h).bind fun a' b' h' => ih ?_ h'
    exact fun c d hd => hf c d (List.mem_cons_of_mem _ hd)

theorem foldlM_same {f : α → γ → Except ε α} {g : β → γ → Except ε β} {l : List γ}
    (hf : ∀ c ∈ l, ∀ a b, R a b → Matches (f a c) (g b c) R) {a : α} {b : β} (h : R a b) :
    Matches (l.foldlM f a) (l.foldlM g b) R :=
  foldlM (P := Eq) (List.forall₂_refl l) (fun _ c hc heq a b hab => heq ▸ hf c hc a b hab) h

/-- The first computation passes over some of the elements. -/
theorem foldlM_filter {p : γ → Bool} {f : α → γ → Except ε α} {g : β → γ → Except ε β} {l : List γ}
    (hf : ∀ c, p c = true → ∀ a b, R a b → Matches (f a c) (g b c) R)
    (hskip : ∀ c, p c = false → ∀ a b b', R a b → g b c = .ok b' → R a b') {a : α} {b : β}
    (h : R a b) : Matches ((l.filter p).foldlM f a) (l.foldlM g b) R := by
  induction l generalizing a b with
  | nil => exact ok h
  | cons c l ih =>
    rw [List.foldlM_cons]
    cases hc : p c with
    | true =>
      rw [List.filter_cons_of_pos hc, List.foldlM_cons]
      exact (hf c hc a b h).bind fun a' b' h' => ih h'
    | false =>
      rw [List.filter_cons_of_neg (by simp [hc])]
      intro d hd
      obtain ⟨b', hb', hd⟩ := bind_eq_ok.1 hd
      exact ih (hskip c hc a b b' h hb') d hd

end Matches

end Matches

end Tabulation
