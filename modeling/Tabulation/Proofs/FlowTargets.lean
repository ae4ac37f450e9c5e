import Tabulation.Answers
import Tabulation.Proofs.FirstMentions

/-!
# The targets of a flow function

A flow function denotes a set of facts for each fact before the edge, `image`, read off its shape.
`targets` lists this set: every fact once, in the order in which the function first mentions it.

**Order.** `mentions` is what a function lists before repetitions are dropped. A union mentions the
targets of its parts from left to right. The parts work on one growing list, and what a part adds
depends on what stands there already; `collect_eraseDups` says that this comes to the same as
listing everything and keeping the first mentions.

**The zero fact.** With `autoAddZero`, the client's answers add the zero fact at the end, if it
holds before the edge and is missing.

Main result: `targets_exact`.
-/

namespace Tabulation

namespace FlowFunction

variable {D : Type} [DecidableEq D]

/-! ## What a flow function denotes -/

mutual

/-- The facts that a function produces from `d`. -/
def image (d : D) : FlowFunction D → Set D
  | .identity => {d}
  | .killAll => ∅
  | .gen source facts => if d = source then {source} ∪ {t | t ∈ facts} else {d}
  | .kill fact => if d = fact then ∅ else {d}
  | .transfer source target =>
    if d = source then {source, target} else if d = target then ∅ else {d}
  | .map pairs => {t | (d, t) ∈ pairs}
  | .union parts => imageAll d parts
  | .lambda f => {t | t ∈ f d}

/-- The facts that any of the functions produces from `d`. -/
def imageAll (d : D) : List (FlowFunction D) → Set D
  | [] => ∅
  | f :: fs => image d f ∪ imageAll d fs

end

/-- The facts that a function lists for `d`, repetitions included. -/
def mentions (d : D) : FlowFunction D → List D
  | .identity => [d]
  | .killAll => []
  | .gen source facts => if d = source then source :: facts else [d]
  | .kill fact => if d = fact then [] else [d]
  | .transfer source target =>
    if d = source then [source, target] else if d = target then [] else [d]
  | .map pairs => (pairs.filter fun p => p.1 = d).map (·.2)
  | .union parts => parts.flatMap (·.targets d)
  | .lambda f => f d

theorem mem_imageAll {d t : D} {parts : List (FlowFunction D)} :
    t ∈ imageAll d parts ↔ ∃ f ∈ parts, t ∈ image d f := by
  induction parts with
  | nil => simp [imageAll]
  | cons f fs ih => simp [imageAll, ih]

/-! ## Collecting targets -/

theorem pushNew_eraseDups (l : List D) (d : D) : pushNew l.eraseDups d = (l ++ [d]).eraseDups := by
  rw [eraseDups_concat, pushNew]
  simp only [List.mem_eraseDups]

theorem pushAll_eraseDups (l ds : List D) : pushAll l.eraseDups ds = (l ++ ds).eraseDups := by
  induction ds generalizing l with
  | nil => simp [pushAll]
  | cons d ds ih =>
    calc pushAll l.eraseDups (d :: ds)
      _ = pushAll (pushNew l.eraseDups d) ds := rfl
      _ = pushAll (l ++ [d]).eraseDups ds := by rw [pushNew_eraseDups]
      _ = (l ++ d :: ds).eraseDups := by rw [ih, List.append_assoc, List.singleton_append]

mutual

/-- A function adds its mentions to those that were listed before. -/
theorem collect_eraseDups (d : D) (f : FlowFunction D) (l : List D) :
    collect d f l.eraseDups = (l ++ f.mentions d).eraseDups := by
  match f with
  | .identity => exact pushNew_eraseDups l d
  | .killAll => simp [collect, mentions]
  | .gen source facts =>
    simp only [collect, mentions, pushNew_eraseDups]
    split
    · next h => rw [pushAll_eraseDups, List.append_assoc, h, List.singleton_append]
    · rfl
  | .kill fact =>
    simp only [collect, mentions]
    split
    · rw [List.append_nil]
    · exact pushNew_eraseDups l d
  | .transfer source target =>
    simp only [collect, mentions]
    split
    · rw [pushNew_eraseDups, pushNew_eraseDups, List.append_assoc, List.singleton_append]
    · split
      · rw [List.append_nil]
      · exact pushNew_eraseDups l d
  | .map pairs => exact pushAll_eraseDups l _
  | .union parts => exact collectAll_eraseDups d parts l
  | .lambda f => exact pushAll_eraseDups l (f d)

/-- The parts of a union add their targets one after another. -/
theorem collectAll_eraseDups (d : D) (fs : List (FlowFunction D)) (l : List D) :
    collectAll d fs l.eraseDups = (l ++ fs.flatMap (·.targets d)).eraseDups := by
  match fs with
  | [] => simp [collectAll]
  | f :: fs =>
    have hpart : f.targets d = (f.mentions d).eraseDups := collect_eraseDups d f []
    calc collectAll d (f :: fs) l.eraseDups
      _ = collectAll d fs (l ++ f.mentions d).eraseDups := by
        rw [collectAll, collect_eraseDups d f l]
      _ = collectAll d fs (l ++ f.targets d).eraseDups := by rw [hpart, eraseDups_append_eraseDups]
      _ = ((l ++ f.targets d) ++ fs.flatMap (·.targets d)).eraseDups := collectAll_eraseDups d fs _
      _ = (l ++ (f :: fs).flatMap (·.targets d)).eraseDups := by
        rw [List.append_assoc, List.flatMap_cons]

end

/-- The targets are the first mentions. -/
theorem targets_eq_eraseDups (f : FlowFunction D) (d : D) :
    f.targets d = (f.mentions d).eraseDups := collect_eraseDups d f []

theorem mem_targets_iff_mentions {f : FlowFunction D} {d t : D} :
    t ∈ f.targets d ↔ t ∈ f.mentions d := by
  rw [targets_eq_eraseDups, List.mem_eraseDups]

mutual

/-- The targets are the facts that the function denotes. -/
theorem mem_targets_iff_image (f : FlowFunction D) (d t : D) : t ∈ f.targets d ↔ t ∈ f.image d := by
  rw [mem_targets_iff_mentions]
  match f with
  | .identity => simp [mentions, image]
  | .killAll => simp [mentions, image]
  | .gen source facts => by_cases h : d = source <;> simp [mentions, image, h]
  | .kill fact => by_cases h : d = fact <;> simp [mentions, image, h]
  | .transfer source target =>
    by_cases h : d = source <;> by_cases h' : d = target <;> simp [mentions, image, h, h']
  | .map pairs => simp [mentions, image]
  | .union parts =>
    rw [image, mentions, List.mem_flatMap, mem_imageAll]
    exact exists_congr fun f => and_congr_right (mem_part_iff_image parts d t f)
  | .lambda f => simp [mentions, image]

theorem mem_part_iff_image (fs : List (FlowFunction D)) (d t : D) (f : FlowFunction D)
    (hf : f ∈ fs) : t ∈ f.targets d ↔ t ∈ f.image d := by
  match fs with
  | [] => cases hf
  | g :: gs =>
    rcases List.mem_cons.1 hf with h | h
    · rw [h]
      exact mem_targets_iff_image g d t
    · exact mem_part_iff_image gs d t f h

end

theorem nodup_targets (f : FlowFunction D) (d : D) : (f.targets d).Nodup := by
  rw [targets_eq_eraseDups]
  exact nodup_eraseDups _

end FlowFunction

/-! ## The zero fact -/

section Zero

variable {D : Type} [DecidableEq D] (a : Answers D) (f : FlowFunction D) (d : D)

/-- The zero fact comes last, if it is not there yet. -/
theorem Answers.targets_eq_append : a.targets f d = f.targets d ++
    if a.autoAddZero = true ∧ d = a.zero ∧ a.zero ∉ f.targets d then [a.zero] else [] := by
  simp only [Answers.targets]
  split <;> simp

theorem Answers.nodup_targets : (a.targets f d).Nodup := by
  rw [Answers.targets]
  split
  · next h =>
    rw [← List.concat_eq_append]
    exact (f.nodup_targets d).concat h.2.2
  · exact f.nodup_targets d

theorem Answers.mem_targets_iff (t : D) : t ∈ a.targets f d ↔
    t ∈ f.targets d ∨ a.autoAddZero = true ∧ d = a.zero ∧ t = a.zero := by
  rw [Answers.targets_eq_append, List.mem_append]
  by_cases h : a.autoAddZero = true ∧ d = a.zero
  · obtain ⟨hauto, rfl⟩ := h
    by_cases hz : a.zero ∈ f.targets a.zero
    · simp only [hauto, hz, not_true_eq_false, and_false, if_false, List.not_mem_nil, or_false,
        true_and]
      exact ⟨.inl, fun h => h.elim id fun h => h ▸ hz⟩
    · simp [hauto, hz]
  · have hnot : ∀ p, ¬ (a.autoAddZero = true ∧ d = a.zero ∧ p) := fun p hp => h ⟨hp.1, hp.2.1⟩
    simp [hnot]

end Zero

/-- The targets of a flow function are the facts that it denotes, each listed once and in the order
of their first mention. The client's answers add the zero fact at the end, if that is asked for, the
zero fact holds before the edge, and it is not among the targets. -/
theorem targets_exact {D : Type} [DecidableEq D] (f : FlowFunction D) (d : D) :
    (f.targets d).Nodup ∧ (∀ t, t ∈ f.targets d ↔ t ∈ f.image d) ∧
      f.targets d = (f.mentions d).eraseDups ∧
      ∀ a : Answers D, (a.targets f d).Nodup ∧
        (∀ t, t ∈ a.targets f d ↔
          t ∈ f.image d ∨ a.autoAddZero = true ∧ d = a.zero ∧ t = a.zero) ∧
        a.targets f d = f.targets d ++
          if a.autoAddZero = true ∧ d = a.zero ∧ a.zero ∉ f.targets d then [a.zero] else [] := by
  have hmem := f.mem_targets_iff_image d
  refine ⟨f.nodup_targets d, hmem, f.targets_eq_eraseDups d, fun a => ⟨a.nodup_targets f d, ?_,
    a.targets_eq_append f d⟩⟩
  intro t
  rw [a.mem_targets_iff f d, hmem]

/-- The second part adds only what the first did not list, and the third nothing. -/
example : (FlowFunction.union [.identity, .union [.gen 1 [2, 2], .lambda fun d => [d, d + 100]],
    .map [(1, 2)]]).targets 1 = [1, 2, 101] := by decide

end Tabulation
