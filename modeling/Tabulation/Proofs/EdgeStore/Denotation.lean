import Tabulation.Proofs.EdgeStore.Combine
import Tabulation.Proofs.MaskMap

/-!
# What the operations of a store denote

`build` makes a store by a sequence of operations on live handles. In such a store, over a lawful
lattice and with lawful payloads, evaluation agrees with the operations: a leaf is the client's
function, a composition is the composition, and a join is the pointwise join unless it was widened.

**Widening.** A join is all-bottom for another reason than its operands only if the functions that
meet in it are too many: `parts` are those that a handle contributes.
-/

namespace Tabulation

namespace EdgeStore

variable {L K : Type} [Ord L] [Ord K] {s s' : EdgeStore L K} {a b c ef : EdgeRef} {φ ψ : L → L}

theorem alive_of_forM {handles : List EdgeRef} {u : PUnit}
    (h : handles.forM (fun ef => discard (s.node ef)) = .ok u) : ∀ ef ∈ handles, s.Alive ef := by
  induction handles with
  | nil => nofun
  | cons ef rest ih =>
    rw [List.forM_eq_forM, List.forM_cons, bind_eq_ok] at h
    obtain ⟨⟨⟩, hef, h⟩ := h
    intro p hp
    rcases List.mem_cons.1 hp with rfl | hp
    · cases hn : s.node p with
      | error f =>
        rw [hn] at hef
        cases hef
      | ok node => exact ⟨node, node_eq_ok.1 hn⟩
    · exact ih h p hp

variable [JoinLattice L] [Payload K L] [DecidableEq L]

/-! ## Built stores -/

/-- A use of a store. -/
inductive Op (L K : Type) where
  | leaf (e : EdgeFunction L K)
  | constant (c : L)
  | compose (first second : EdgeRef)
  | join (a b : EdgeRef)
  | sweep (roots : List EdgeRef)

namespace Op

/-- The handles that an operation is given. -/
def handles : Op L K → List EdgeRef
  | .leaf _ | .constant _ => []
  | .compose first second => [first, second]
  | .join a b => [a, b]
  | .sweep roots => roots

/-- Whether the operation frees handles. -/
def isSweep : Op L K → Bool
  | .sweep _ => true
  | _ => false

/-- The store after an operation. -/
def perform (s : EdgeStore L K) : Op L K → Except Fault (EdgeStore L K)
  | .leaf e => .ok (s.leaf e).2
  | .constant c => .ok (s.constant c).2
  | .compose first second => return (← s.compose first second).2
  | .join a b => return (← s.join a b).2
  | .sweep roots => return (← s.sweep roots).2

end Op

/-- The store that operations make of a new one. A handle that is not alive is a fault. -/
def build (limit : Nat) (ops : List (Op L K)) : Except Fault (EdgeStore L K) := do
  ops.foldlM (fun s op => do
    op.handles.forM fun ef => discard (s.node ef)
    op.perform s) (← create limit)

section Orders

variable [Std.TransOrd L] [Std.LawfulEqOrd L] [Std.TransOrd K] [Std.LawfulEqOrd K]

/-- An operation on live handles returns and keeps a store regular. Only a sweep lets it shrink. -/
theorem Regular.perform (h : Regular s) {op : Op L K} (halive : ∀ ef ∈ op.handles, s.Alive ef) :
    ∃ s', op.perform s = .ok s' ∧ Regular s' ∧ s'.joinLimit = s.joinLimit ∧
      (op.isSweep = false → s ≤ s') := by
  cases op with
  | leaf e =>
    obtain ⟨h', hle, -⟩ := h.leaf (e := e) rfl
    exact ⟨_, rfl, h', hle.2.1, fun _ => hle⟩
  | constant c =>
    obtain ⟨h', hle, -⟩ := h.constant (v := c) rfl
    exact ⟨_, rfl, h', hle.2.1, fun _ => hle⟩
  | compose f g =>
    obtain ⟨c, s', hc, h', hle, -⟩ := h.compose (halive f (by simp [Op.handles]))
      (halive g (by simp [Op.handles]))
    exact ⟨s', bind_eq_ok.2 ⟨_, hc, rfl⟩, h', hle.2.1, fun _ => hle⟩
  | join a b =>
    obtain ⟨c, s', hc, h', hle, -⟩ := h.join (halive a (by simp [Op.handles]))
      (halive b (by simp [Op.handles]))
    exact ⟨s', bind_eq_ok.2 ⟨_, hc, rfl⟩, h', hle.2.1, fun _ => hle⟩
  | sweep roots =>
    obtain ⟨n, s', hs, h', freed, hk, -⟩ := h.sweep halive
    exact ⟨s', bind_eq_ok.2 ⟨_, hs, rfl⟩, h', hk.joinLimit, nofun⟩

theorem regular_of_build {limit : Nat} {ops : List (Op L K)} (h : build limit ops = .ok s) :
    Regular s ∧ s.joinLimit = limit := by
  rw [build, bind_eq_ok] at h
  obtain ⟨s₀, h₀, h⟩ := h
  obtain ⟨-, rfl⟩ := create_eq_ok.1 h₀
  refine foldlM_ok (fun _ s => Regular s ∧ s.joinLimit = limit) h ⟨regular_withLimit limit, rfl⟩ ?_
  intro _ op t t' _ ⟨ht, hlimit⟩ hstep
  rw [bind_eq_ok] at hstep
  obtain ⟨⟨⟩, halive, hstep⟩ := hstep
  obtain ⟨s', hs', h', hlimit', -⟩ := ht.perform (alive_of_forM halive)
  obtain rfl := Except.ok.inj (hs'.symm.trans hstep)
  exact ⟨h', hlimit'.trans hlimit⟩

end Orders

/-! ## Evaluation -/

variable [LawfulPayload K L] [LawfulJoin L] [Std.TransOrd L] [Std.LawfulEqOrd L] [Std.TransOrd K]
  [Std.LawfulEqOrd K]

/-- In a built store, leaves evaluate like the client's functions, compositions like compositions,
and joins like pointwise joins unless more functions meet in them than the limit allows. -/
theorem eval_build (limit : Nat) (ops : List (Op L K)) (s : EdgeStore L K)
    (hs : build limit ops = .ok s) :
    (∀ (e : EdgeFunction L K) (v : L), (s.leaf e).2.eval (s.leaf e).1 v = .ok (e.apply v)) ∧
    (∀ f g, s.Alive f → s.Alive g → ∃ c s', s.compose f g = .ok (c, s') ∧
      ∀ v, ∃ x y, s'.eval f v = .ok x ∧ s'.eval g x = .ok y ∧ s'.eval c v = .ok y) ∧
    ∀ a b, s.Alive a → s.Alive b → ∃ c s', s.join a b = .ok (c, s') ∧
      ((∀ v, ∃ x y, s'.eval a v = .ok x ∧ s'.eval b v = .ok y ∧
        s'.eval c v = .ok (JoinLattice.join x y)) ∨
      c = .allBottom ∧ limit < (s'.parts a ∪ s'.parts b).card) := by
  obtain ⟨h, hlimit⟩ := regular_of_build hs
  refine ⟨fun e v => ?_, fun f g hf hg => ?_, fun a b ha hb => ?_⟩
  · obtain ⟨h', -, hat⟩ := h.leaf (e := e) rfl
    exact h'.eval (h'.means_leafAt hat) v
  · obtain ⟨c, s', hc, h', hle, n, hn⟩ := h.compose hf hg
    obtain ⟨φ, hφ⟩ := h'.means (hf.mono hle)
    obtain ⟨ψ, hψ⟩ := h'.means (hg.mono hle)
    refine ⟨c, s', hc, fun v => ⟨φ v, ψ (φ v), h'.eval hφ v, h'.eval hψ _, ?_⟩⟩
    exact h'.eval (hn.means h' hφ hψ) v
  · obtain ⟨c, s', hc, h', hle, hj⟩ := h.join ha hb
    obtain ⟨φ, hφ⟩ := h'.means (ha.mono hle)
    obtain ⟨ψ, hψ⟩ := h'.means (hb.mono hle)
    refine ⟨c, s', hc, ?_⟩
    -- The operands were joined with the lower handle first.
    have hmeans : Means s' c (fun v => JoinLattice.join (φ v) (ψ v)) ∨
        c = .allBottom ∧ s'.joinLimit < (s'.parts a ∪ s'.parts b).card := by
      unfold joinKey at hj
      split at hj
      · exact hj.means h' hφ hψ
      · have hcomm : (fun v => JoinLattice.join (φ v) (ψ v)) =
            fun v => JoinLattice.join (ψ v) (φ v) := funext fun v => LawfulJoin.join_comm _ _
        rw [hcomm, Finset.union_comm]
        exact hj.means h' hψ hφ
    rw [hle.2.1, hlimit] at hmeans
    refine hmeans.imp_left fun hmeans v => ?_
    exact ⟨φ v, ψ v, h'.eval hφ v, h'.eval hψ v, h'.eval hmeans v⟩

/-- Two shifts and their join, and a third shift in a slot that was freed. -/
def crowd : List (Op Mask MaskMap) :=
  [.leaf (.constant ⟨7⟩), .leaf (.custom (.shiftLeft 1)), .leaf (.custom (.shiftLeft 2)),
    .join ⟨4⟩ ⟨5⟩, .sweep [⟨6⟩], .leaf (.custom (.shiftLeft 3))]

/-- With joins of at most two parts, three shifts do not fit into one join. -/
theorem eval_build_crowd :
    ∃ s s', build 2 crowd = .ok s ∧ s.join ⟨6⟩ ⟨3⟩ = .ok (.allBottom, s') ∧
      2 < (s'.parts ⟨6⟩ ∪ s'.parts ⟨3⟩).card := by
  have hrun : (do
      let s ← build 2 crowd
      let c ← s.join ⟨6⟩ ⟨3⟩
      let x ← c.2.eval ⟨6⟩ ⟨0⟩
      let y ← c.2.eval ⟨3⟩ ⟨0⟩
      let z ← c.2.eval c.1 ⟨0⟩
      return ((s.node? ⟨6⟩, s.node? ⟨3⟩), c.1, x, y, z)) =
      .ok ((some (.join ⟨0⟩ [⟨4⟩, ⟨5⟩]), some (.custom (.shiftLeft 3))), .allBottom, ⟨0⟩, ⟨0⟩,
        bottom) := by
    decide +kernel
  simp only [bind_eq_ok, pure_eq_ok, Prod.mk.injEq] at hrun
  obtain ⟨s, hs, ⟨c, s'⟩, hc, x, hx, y, hy, z, hz, ⟨ha, hb⟩, rfl, rfl, rfl, rfl⟩ := hrun
  obtain ⟨c', t, hc', hjoin⟩ := (eval_build 2 crowd s hs).2.2 ⟨6⟩ ⟨3⟩ ⟨_, ha⟩ ⟨_, hb⟩
  obtain ⟨rfl, rfl⟩ := Prod.mk.inj (Except.ok.inj (hc.symm.trans hc'))
  refine ⟨s, s', hs, hc, ?_⟩
  rcases hjoin with hjoin | ⟨-, hcard⟩
  · obtain ⟨x, y, hx', hy', hz'⟩ := hjoin ⟨0⟩
    obtain rfl := Except.ok.inj (hx.symm.trans hx')
    obtain rfl := Except.ok.inj (hy.symm.trans hy')
    exact absurd (Except.ok.inj (hz.symm.trans hz')) (by decide)
  · exact hcard

end EdgeStore

end Tabulation
