import Tabulation.Proofs.Program

/-!
# What a program ensures

`Ensures E m s Q` says what becomes of a program `m` that is started in the state `s`: it returns,
and then `Q` holds of its result and the state that it leaves, or it ends with a fault that `E`
allows. With an `E` that allows nothing the program returns; with one that allows all faults but
some, these faults never happen.

The rules follow the shape of programs: `seq` for a sequence, `forM` for a loop with an invariant,
and one rule for each of the basic programs. `Returns` is the same for computations without a state.
-/

namespace Tabulation

variable {σ ε α β : Type} {E : ε → Prop} {s : σ}

/-- Started in `s`, the program returns with `Q` or ends with a fault that `E` allows. -/
def Ensures (E : ε → Prop) (m : StateT σ (Except ε) α) (s : σ) (Q : α → σ → Prop) : Prop :=
  match m.run s with
  | .ok (a, t) => Q a t
  | .error f => E f

namespace Ensures

variable {m : StateT σ (Except ε) α} {P Q : α → σ → Prop}

theorem of_ok {a : α} {t : σ} (h : m.run s = .ok (a, t)) (hQ : Q a t) : Ensures E m s Q := by
  unfold Ensures
  rw [h]
  exact hQ

theorem of_error {f : ε} (h : m.run s = .error f) (hE : E f) : Ensures E m s Q := by
  unfold Ensures
  rw [h]
  exact hE

/-- A run that returned has what is ensured. -/
theorem elim (h : Ensures E m s Q) {a : α} {t : σ} (hrun : m.run s = .ok (a, t)) : Q a t := by
  unfold Ensures at h
  rw [hrun] at h
  exact h

/-- A run that failed did so with a fault that is allowed. -/
theorem allowed (h : Ensures E m s Q) {f : ε} (hrun : m.run s = .error f) : E f := by
  unfold Ensures at h
  rw [hrun] at h
  exact h

/-- A program that may not fail returns. -/
theorem exists_ok (h : Ensures (fun _ => False) m s Q) : ∃ a t, m.run s = .ok (a, t) ∧ Q a t := by
  cases hrun : m.run s with
  | ok r => exact ⟨r.1, r.2, rfl, h.elim hrun⟩
  | error f => exact (h.allowed hrun).elim

theorem imp (h : Ensures E m s P) (hPQ : ∀ a t, P a t → Q a t) : Ensures E m s Q := by
  cases hrun : m.run s with
  | ok r => exact of_ok hrun (hPQ _ _ (h.elim hrun))
  | error f => exact of_error hrun (h.allowed hrun)

theorem and (h : Ensures E m s P) (h' : Ensures E m s Q) :
    Ensures E m s fun a t => P a t ∧ Q a t := by
  cases hrun : m.run s with
  | ok r => exact of_ok hrun ⟨h.elim hrun, h'.elim hrun⟩
  | error f => exact of_error hrun (h.allowed hrun)

/-! ## Rules -/

theorem pure {a : α} (h : Q a s) : Ensures E (pure a) s Q := of_ok rfl h

theorem seq {f : α → StateT σ (Except ε) β} {R : β → σ → Prop} (h : Ensures E m s P)
    (hf : ∀ a t, P a t → Ensures E (f a) t R) : Ensures E (m >>= f) s R := by
  cases hrun : m.run s with
  | error e =>
    refine of_error ?_ (h.allowed hrun)
    rw [StateT.run_bind, hrun]
    rfl
  | ok r =>
    obtain ⟨a, t⟩ := r
    have hbind : (m >>= f).run s = (f a).run t := by
      rw [StateT.run_bind, hrun]
      rfl
    unfold Ensures
    rw [hbind]
    exact hf a t (h.elim hrun)

theorem modify_end {f : σ → σ} {Q : PUnit → σ → Prop} (h : Q ⟨⟩ (f s)) :
    Ensures E (modify f : StateT σ (Except ε) PUnit) s Q := of_ok rfl h

theorem lift {x : Except ε α} (hok : ∀ a, x = .ok a → Q a s) (herror : ∀ f, x = .error f → E f) :
    Ensures E (liftM x : StateT σ (Except ε) α) s Q := by
  cases x with
  | ok a => exact of_ok rfl (hok a rfl)
  | error f => exact of_error rfl (herror f rfl)

section Seq

variable {R : β → σ → Prop}

theorem get_seq {f : σ → StateT σ (Except ε) β} (h : Ensures E (f s) s R) :
    Ensures E (get >>= f) s R :=
  seq (P := fun a t => a = s ∧ t = s) (of_ok rfl ⟨rfl, rfl⟩) fun _ _ ⟨ha, ht⟩ => ha ▸ ht ▸ h

theorem set_seq {t : σ} {f : PUnit → StateT σ (Except ε) β} (h : Ensures E (f ⟨⟩) t R) :
    Ensures E (set t >>= f) s R :=
  seq (P := fun _ u => u = t) (of_ok rfl rfl) fun _ _ hu => hu ▸ h

theorem modify_seq {g : σ → σ} {f : PUnit → StateT σ (Except ε) β}
    (h : Ensures E (f ⟨⟩) (g s) R) :
    Ensures E ((modify g : StateT σ (Except ε) PUnit) >>= f) s R :=
  seq (P := fun _ t => t = g s) (of_ok rfl rfl) fun _ _ ht => ht ▸ h

theorem lift_seq {x : Except ε α} {f : α → StateT σ (Except ε) β}
    (hok : ∀ a, x = .ok a → Ensures E (f a) s R) (herror : ∀ e, x = .error e → E e) :
    Ensures E (liftM x >>= f) s R :=
  seq (P := fun a t => x = .ok a ∧ t = s) (lift (fun _ ha => ⟨ha, rfl⟩) herror)
    fun a _ ⟨ha, ht⟩ => ht ▸ hok a ha

theorem ok_seq {x : Except ε α} {a : α} {f : α → StateT σ (Except ε) β} (hx : x = .ok a)
    (h : Ensures E (f a) s R) : Ensures E (liftM x >>= f) s R := by
  subst hx
  exact h

end Seq

/-- What every step of a loop keeps holds at its end. -/
theorem forM {f : α → StateT σ (Except ε) PUnit} (I : σ → Prop) {l : List α} (hs : I s)
    (hf : ∀ a ∈ l, ∀ t, I t → Ensures E (f a) t fun _ u => I u) :
    Ensures E (l.forM f) s fun _ t => I t := by
  induction l generalizing s with
  | nil => exact pure hs
  | cons a l ih =>
    refine (hf a List.mem_cons_self s hs).seq fun _ t ht => ?_
    exact ih ht fun b hb => hf b (List.mem_cons_of_mem a hb)

theorem forM_singleton {f : α → StateT σ (Except ε) PUnit} {a : α} {Q : PUnit → σ → Prop}
    (h : Ensures E (f a) s Q) : Ensures E ([a].forM f) s Q :=
  h.seq fun _ _ ht => pure ht

end Ensures

/-! ## Computations without a state -/

/-- The computation returns with `Q` or ends with a fault that `E` allows. -/
def Returns (E : ε → Prop) (x : Except ε α) (Q : α → Prop) : Prop :=
  match x with
  | .ok a => Q a
  | .error f => E f

namespace Returns

variable {x : Except ε α} {P Q : α → Prop}

theorem of_ok {a : α} (h : x = .ok a) (hQ : Q a) : Returns E x Q := by
  rw [h]
  exact hQ

theorem of_forall (hok : ∀ a, x = .ok a → Q a) (herror : ∀ f, x = .error f → E f) :
    Returns E x Q := by
  cases x with
  | ok a => exact hok a rfl
  | error f => exact herror f rfl

theorem allowed (h : Returns E x Q) {f : ε} (hx : x = .error f) : E f := by
  rw [hx] at h
  exact h

theorem imp (h : Returns E x P) (hPQ : ∀ a, P a → Q a) : Returns E x Q := by
  cases x with
  | ok a => exact hPQ a h
  | error f => exact h

/-- If no fault is allowed, the computation returns. -/
theorem exists_ok (hE : ∀ f, ¬ E f) (h : Returns E x P) : ∃ a, x = .ok a ∧ P a := by
  cases x with
  | ok a => exact ⟨a, rfl, h⟩
  | error f => exact absurd h (hE f)

theorem bind {f : α → Except ε β} {R : β → Prop} (h : Returns E x P)
    (hf : ∀ a, P a → Returns E (f a) R) : Returns E (x >>= f) R := by
  cases x with
  | ok a => exact hf a h
  | error e => exact h

theorem foldlM {f : β → α → Except ε β} (I : β → Prop) {l : List α} {b : β} (hb : I b)
    (hf : ∀ a ∈ l, ∀ c, I c → Returns E (f c a) I) : Returns E (l.foldlM f b) I := by
  induction l generalizing b with
  | nil => exact hb
  | cons a l ih =>
    rw [List.foldlM_cons]
    exact (hf a List.mem_cons_self b hb).bind fun c hc =>
      ih hc fun a' ha' => hf a' (List.mem_cons_of_mem a ha')

end Returns

end Tabulation
