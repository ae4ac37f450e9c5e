import Mathlib
import Tabulation.Solver.State

/-!
# Reading off what a program did

Programs that change a state and may fail run in `StateT σ (Except ε)`. A run that returned can be
taken apart: `run_bind_ok` splits a sequence into its two runs, `run_lift_ok` removes a lifted
computation, and `run_forM_ok` is the induction over a loop. Proofs about solver code peel programs
with these and never evaluate them.
-/

namespace Tabulation

section Except

variable {ε α β : Type}

theorem ok_bind (a : α) (f : α → Except ε β) : (Except.ok a >>= f) = f a := rfl

theorem bind_eq_ok {x : Except ε α} {f : α → Except ε β} {b : β} :
    x >>= f = .ok b ↔ ∃ a, x = .ok a ∧ f a = .ok b := by
  cases x with
  | error e => simp [bind, Except.bind]
  | ok a => simp [bind, Except.bind]

theorem pure_eq_ok {a b : α} : (pure a : Except ε α) = .ok b ↔ a = b := by
  simp [pure, Except.pure]

/-- What every step of a fold keeps holds at its end. -/
theorem foldlM_ok {f : β → α → Except ε β} (P : List α → β → Prop) {l : List α} {b b' : β}
    (h : l.foldlM f b = .ok b') (h₀ : P [] b)
    (hf : ∀ done a c c', a ∈ l → P done c → f c a = .ok c' → P (done ++ [a]) c') : P l b' := by
  suffices H : ∀ (rest done : List α) (c : β), l = done ++ rest → P done c →
      rest.foldlM f c = .ok b' → P l b' from H l [] b rfl h₀ h
  intro rest
  induction rest with
  | nil =>
    intro done c hl hc h
    rw [List.foldlM_nil, pure_eq_ok] at h
    rw [hl, List.append_nil, ← h]
    exact hc
  | cons a rest ih =>
    intro done c hl hc h
    rw [List.foldlM_cons, bind_eq_ok] at h
    obtain ⟨c', hc', h⟩ := h
    have ha : a ∈ l := by rw [hl]; simp
    exact ih (done ++ [a]) c' (by rw [hl]; simp) (hf done a c c' ha hc hc') h

/-- A fold returns if each of its steps does. -/
theorem foldlM_total {f : β → α → Except ε β} (I : β → Prop) {l : List α} {b : β} (hb : I b)
    (hf : ∀ a ∈ l, ∀ c, I c → ∃ c', f c a = .ok c' ∧ I c') :
    ∃ r, l.foldlM f b = .ok r ∧ I r := by
  induction l generalizing b with
  | nil => exact ⟨b, rfl, hb⟩
  | cons a l ih =>
    obtain ⟨c, hc, hI⟩ := hf a List.mem_cons_self b hb
    obtain ⟨r, hr, hIr⟩ := ih hI fun a' ha' => hf a' (List.mem_cons_of_mem a ha')
    exact ⟨r, by rw [List.foldlM_cons]; exact bind_eq_ok.2 ⟨c, hc, hr⟩, hIr⟩

/-- A search returns if each of its tests does. -/
theorem anyM_total {p : α → Except ε Bool} {l : List α} (h : ∀ a ∈ l, ∃ b, p a = .ok b) :
    ∃ b, l.anyM p = .ok b := by
  induction l with
  | nil => exact ⟨false, rfl⟩
  | cons a l ih =>
    obtain ⟨b, hb⟩ := h a List.mem_cons_self
    obtain ⟨r, hr⟩ := ih fun a' ha' => h a' (List.mem_cons_of_mem a ha')
    cases b with
    | true => exact ⟨true, bind_eq_ok.2 ⟨true, hb, rfl⟩⟩
    | false => exact ⟨r, bind_eq_ok.2 ⟨false, hb, hr⟩⟩

end Except

section StateT

variable {σ ε α β γ : Type}

theorem run_bind_ok {m : StateT σ (Except ε) α} {f : α → StateT σ (Except ε) β} {s s' : σ} {b : β}
    (h : (m >>= f).run s = .ok (b, s')) :
    ∃ a t, m.run s = .ok (a, t) ∧ (f a).run t = .ok (b, s') := by
  rw [StateT.run_bind, bind_eq_ok] at h
  obtain ⟨⟨a, t⟩, hm, hf⟩ := h
  exact ⟨a, t, hm, hf⟩

theorem run_pure_ok {a b : α} {s s' : σ}
    (h : (pure a : StateT σ (Except ε) α).run s = .ok (b, s')) : a = b ∧ s = s' := by
  rw [StateT.run_pure, pure_eq_ok] at h
  exact Prod.mk.inj h

theorem run_lift_ok {x : Except ε α} {a : α} {s s' : σ}
    (h : (liftM x : StateT σ (Except ε) α).run s = .ok (a, s')) : x = .ok a ∧ s = s' := by
  change (x >>= fun a => pure (a, s)) = _ at h
  rw [bind_eq_ok] at h
  obtain ⟨b, hx, h⟩ := h
  rw [pure_eq_ok] at h
  obtain ⟨rfl, rfl⟩ := Prod.mk.inj h
  exact ⟨hx, rfl⟩

theorem run_get_ok {a s s' : σ} (h : (get : StateT σ (Except ε) σ).run s = .ok (a, s')) :
    s = a ∧ s = s' := run_pure_ok h

theorem run_modify_ok {f : σ → σ} {s s' : σ} {u : PUnit}
    (h : (modify f : StateT σ (Except ε) PUnit).run s = .ok (u, s')) : f s = s' :=
  (run_pure_ok h).2

/-- A program that reads the state, computes a result with a new part of the state, and writes the
part back. -/
theorem run_update_ok {f : σ → Except ε (α × β)} {g : β → σ → σ} {r : α → γ} {s s' : σ} {c : γ}
    (h : (do
      let (a, b) ← f (← get)
      modify (g b)
      return r a : StateT σ (Except ε) γ).run s = .ok (c, s')) :
    ∃ a b, f s = .ok (a, b) ∧ c = r a ∧ s' = g b s := by
  obtain ⟨_, _, hget, hrun⟩ := run_bind_ok h
  obtain ⟨rfl, rfl⟩ := run_get_ok hget
  obtain ⟨⟨a, b⟩, _, hlift, hrun⟩ := run_bind_ok hrun
  obtain ⟨hf, rfl⟩ := run_lift_ok hlift
  obtain ⟨_, _, hmod, hret⟩ := run_bind_ok hrun
  obtain ⟨rfl, rfl⟩ := run_pure_ok hret
  exact ⟨a, b, hf, rfl, (run_modify_ok hmod).symm⟩

/-- What every step of a loop keeps holds at its end. -/
theorem run_forM_ok {f : α → StateT σ (Except ε) PUnit} (P : List α → σ → Prop) {l : List α}
    {s s' : σ} {u : PUnit} (h : (l.forM f).run s = .ok (u, s')) (h₀ : P [] s)
    (hf : ∀ done a t t', a ∈ l → P done t → (f a).run t = .ok (⟨⟩, t') → P (done ++ [a]) t') :
    P l s' := by
  suffices H : ∀ (rest done : List α) (t : σ), l = done ++ rest → P done t →
      (rest.forM f).run t = .ok (u, s') → P l s' from H l [] s rfl h₀ h
  intro rest
  induction rest with
  | nil =>
    intro done t hl ht h
    obtain ⟨-, rfl⟩ := run_pure_ok h
    rw [hl, List.append_nil]
    exact ht
  | cons a rest ih =>
    intro done t hl ht h
    obtain ⟨⟨⟩, t', ha, h⟩ := run_bind_ok h
    have hmem : a ∈ l := by rw [hl]; simp
    exact ih (done ++ [a]) t' (by rw [hl]; simp) (hf done a t t' hmem ht ha) h

/-- A loop whose steps keep `I`, move along `R` and establish a fact that `R` keeps. -/
theorem run_forM_rel {f : α → StateT σ (Except ε) PUnit} {I : σ → Prop} {R : σ → σ → Prop}
    {Q : α → σ → Prop} (refl : ∀ s, R s s) (trans : ∀ {s t u}, R s t → R t u → R s u)
    (later : ∀ {a s t}, I s → R s t → Q a s → Q a t) {l : List α} {s s' : σ} {u : PUnit}
    (h : (l.forM f).run s = .ok (u, s')) (hI : I s)
    (hf : ∀ a ∈ l, ∀ t t', I t → R s t → (f a).run t = .ok (⟨⟩, t') → I t' ∧ R t t' ∧ Q a t') :
    I s' ∧ R s s' ∧ ∀ a ∈ l, Q a s' := by
  refine run_forM_ok (fun done t => I t ∧ R s t ∧ ∀ a ∈ done, Q a t) h
    ⟨hI, refl s, fun a ha => by simp at ha⟩ ?_
  intro done a t t' ha ⟨hIt, hR, hQ⟩ hrun
  obtain ⟨hI', hR', hQ'⟩ := hf a ha t t' hIt hR hrun
  refine ⟨hI', trans hR hR', fun b hb => ?_⟩
  rcases List.mem_append.1 hb with hb | hb
  · exact later hIt hR' (hQ b hb)
  · rw [List.mem_singleton.1 hb]
    exact hQ'

end StateT

end Tabulation
