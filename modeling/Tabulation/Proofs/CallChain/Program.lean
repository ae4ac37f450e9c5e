import Tabulation.Example.CallChain
import Tabulation.Proofs.GraphSteps

/-!
# The program with a chain of calls

`main` and the procedures of the chain are numbered by *level*: `main` is at level 0 and calls level
1, which calls level 2, and so on. A node is known by its level and its position.

**The graph.** `graph` returns for every depth, `exists_graph`, and `Drawn` says what it then holds:
the nodes of a level follow each other, the first starts the procedure and the last exits it.

**Calls.** The second node of a level calls the next level, and so does the fourth node of `main`,
`callsAt`.
-/

namespace Tabulation

namespace CallChain

/-! ## Names -/

/-- The procedure at a level. -/
def procAt : Nat → String
  | 0 => "main"
  | i + 1 => procName i

/-- The number of nodes at a level. -/
def lengthAt : Nat → Nat
  | 0 => 6
  | _ + 1 => 4

/-- The node at a position of a level. -/
def nodeAt (k j : Nat) : String := nodeName (procAt k) j

/-- The nodes of a level. -/
def nodesAt (k : Nat) : List String := nodes (procAt k) (lengthAt k)

theorem dot_not_mem_toString (n : Nat) : '.' ∉ (toString n).toList := by
  rw [Nat.toString_eq_repr, Nat.toList_repr]
  intro h
  have := Nat.isDigit_of_mem_toDigits (by decide) (by decide) h
  revert this
  decide

theorem dot_not_mem_procAt (k : Nat) : '.' ∉ (procAt k).toList := by
  cases k with
  | zero => decide
  | succ i =>
    rw [procAt, procName, String.toList_append, List.mem_append]
    exact fun h => h.elim (by decide) (dot_not_mem_toString i)

theorem procAt_inj {k l : Nat} : procAt k = procAt l ↔ k = l := by
  refine ⟨fun h => ?_, congrArg procAt⟩
  have hlist := congrArg String.toList h
  cases k with
  | zero =>
    cases l with
    | zero => rfl
    | succ i => simp [procAt, procName] at hlist
  | succ i =>
    cases l with
    | zero => simp [procAt, procName] at hlist
    | succ j =>
      simp only [procAt, procName, String.toList_append, Nat.toString_eq_repr] at hlist
      rw [Nat.repr_inj.1 (String.toList_inj.1 (List.append_cancel_left hlist))]

/-- Names tell nodes apart. -/
@[simp] theorem nodeAt_inj {k j l i : Nat} : nodeAt k j = nodeAt l i ↔ k = l ∧ j = i := by
  refine ⟨fun h => ?_, fun ⟨hk, hj⟩ => by rw [hk, hj]⟩
  have hlist := congrArg String.toList h
  simp only [nodeAt, nodeName, String.toList_append, List.append_assoc] at hlist
  obtain ⟨hproc, -, hnum⟩ := (List.append_cons_inj_of_notMem (dot_not_mem_procAt k)
    (dot_not_mem_toString j)).1 hlist
  exact ⟨procAt_inj.1 (String.toList_inj.1 hproc), Nat.repr_inj.1 (String.toList_inj.1 hnum)⟩

theorem mem_nodesAt {n : String} {k : Nat} : n ∈ nodesAt k ↔ ∃ j < lengthAt k, n = nodeAt k j := by
  simp [nodesAt, nodes, nodeAt, eq_comm]

@[simp] theorem nodeAt_mem_nodesAt {k j l : Nat} :
    nodeAt k j ∈ nodesAt l ↔ k = l ∧ j < lengthAt k := by
  rw [mem_nodesAt]
  constructor
  · rintro ⟨i, hi, h⟩
    obtain ⟨rfl, rfl⟩ := nodeAt_inj.1 h
    exact ⟨rfl, hi⟩
  · rintro ⟨rfl, hj⟩
    exact ⟨j, hj, rfl⟩

theorem nodup_nodesAt (k : Nat) : (nodesAt k).Nodup :=
  List.Nodup.map (fun _ _ h => (nodeAt_inj.1 h).2) List.nodup_range

theorem lengthAt_pos (k : Nat) : 0 < lengthAt k := by
  cases k with
  | zero => decide
  | succ i => exact Nat.zero_lt_succ 3

theorem head?_nodesAt (k : Nat) : (nodesAt k).head? = some (nodeAt k 0) := by
  cases k <;> rfl

theorem getLast?_nodesAt (k : Nat) : (nodesAt k).getLast? = some (nodeAt k (lengthAt k - 1)) := by
  cases k <;> rfl

/-! ## The graph -/

/-- What is known about a node, if the first `linked` edges of its level were added. -/
def infoAt (k j linked : Nat) (callees : List String) : NodeInfo where
  proc := k
  succs := if j < linked then [nodeAt k (j + 1)] else []
  preds := if 0 < j ∧ j ≤ linked then [nodeAt k (j - 1)] else []
  callees
  isStart := decide (j = 0)
  isExit := decide (j + 1 = lengthAt k)

section Link

variable {k j m : Nat} {callees : List String}

/-- A level is declared without edges. -/
theorem infoAt_blank (hj : j < lengthAt k) : infoAt k j 0 [] =
    { proc := k, succs := [], preds := [], callees := []
      isStart := some (nodeAt k 0) == some (nodeAt k j)
      isExit := some (nodeAt k (lengthAt k - 1)) == some (nodeAt k j) } := by
  have hfirst : 0 = j ↔ j = 0 := eq_comm
  have hlast : lengthAt k - 1 = j ↔ j + 1 = lengthAt k := by omega
  have hnone : ¬ (0 < j ∧ j = 0) := by omega
  simp [infoAt, Bool.beq_eq_decide_eq, hfirst, hlast, -not_and, hnone]

/-- The next edge adds a successor to its source. -/
theorem infoAt_source : infoAt k m (m + 1) callees = { infoAt k m m callees with
    succs := Supergraph.addName (infoAt k m m callees).succs (nodeAt k (m + 1)) } := by
  simp [infoAt, Supergraph.addName]

/-- The next edge adds a predecessor to its target. -/
theorem infoAt_target : infoAt k (m + 1) (m + 1) callees = { infoAt k (m + 1) m callees with
    preds := Supergraph.addName (infoAt k (m + 1) m callees).preds (nodeAt k m) } := by
  simp [infoAt, Supergraph.addName]

theorem infoAt_other (hsource : j ≠ m) (htarget : j ≠ m + 1) :
    infoAt k j (m + 1) callees = infoAt k j m callees := by
  have hlt : j < m + 1 ↔ j < m := by omega
  have hle : j ≤ m + 1 ↔ j ≤ m := by omega
  simp only [infoAt, hlt, hle]

end Link

/-- The graph has the given levels, with so many edges and such calls at each of them. -/
structure Drawn (g : Supergraph) (levels : Nat) (linked : Nat → Nat)
    (callees : Nat → Nat → List String) : Prop where
  built : g.Built
  procs : g.procNames = (List.range levels).map procAt
  nodes : ∀ k j, g.nodes[nodeAt k j]? =
    if k < levels ∧ j < lengthAt k then some (infoAt k j (linked k) (callees k j)) else none
  known : ∀ n, g.Known n → ∃ k < levels, n ∈ nodesAt k

namespace Drawn

variable {g : Supergraph} {levels : Nat} {linked linked' : Nat → Nat}
  {callees callees' : Nat → Nat → List String} {k j : Nat}

theorem node (h : Drawn g levels linked callees) (hk : k < levels) (hj : j < lengthAt k) :
    g.nodes[nodeAt k j]? = some (infoAt k j (linked k) (callees k j)) := by
  rw [h.nodes, if_pos ⟨hk, hj⟩]

theorem congr (h : Drawn g levels linked callees) (hlinked : ∀ k < levels, linked k = linked' k)
    (hcallees : ∀ k < levels, ∀ j, callees k j = callees' k j) :
    Drawn g levels linked' callees' where
  built := h.built
  procs := h.procs
  nodes k j := by
    rw [h.nodes]
    split
    · next hk => rw [hlinked k hk.1, hcallees k hk.1 j]
    · rfl
  known := h.known

theorem mem_procs (h : Drawn g levels linked callees) : procAt k ∈ g.procNames ↔ k < levels := by
  simp [h.procs, procAt_inj]

theorem empty : Drawn .empty 0 linked callees where
  built := .empty
  procs := by simp [Supergraph.procNames, Supergraph.empty]
  nodes k j := by simp [Supergraph.empty]
  known n := by simp [Supergraph.Known, Supergraph.empty]

/-- A level can be declared. -/
theorem addProc (h : Drawn g levels linked callees) (hlinked : linked levels = 0)
    (hcallees : ∀ j, callees levels j = []) :
    ∃ g', g.addProc (procAt levels) (nodesAt levels) = .ok g' ∧
      Drawn g' (levels + 1) linked callees := by
  have hfresh : ∀ n ∈ nodesAt levels, g.nodes[n]? = none := fun n hn => by
    obtain ⟨j, -, rfl⟩ := mem_nodesAt.1 hn
    rw [h.nodes, if_neg fun h => Nat.lt_irrefl _ h.1]
  obtain ⟨g', hg', hprocs, hnodes⟩ := Supergraph.addProc_total h.built.consistent
    (mt h.mem_procs.1 (Nat.lt_irrefl levels)) (nodup_nodesAt levels) hfresh
  refine ⟨g', hg', h.built.proc hg', ?_, fun k j => ?_, fun n hn => ?_⟩
  · rw [hprocs, h.procs, List.range_succ, List.map_append]
    rfl
  · rw [hnodes, h.nodes]
    simp only [nodeAt_mem_nodesAt, head?_nodesAt, getLast?_nodesAt]
    by_cases hk : k = levels
    · subst hk
      by_cases hj : j < lengthAt k
      · simp [hj, infoAt_blank hj, hlinked, hcallees, h.procs]
      · simp [hj]
    · have hlt : k < levels + 1 ↔ k < levels := by omega
      simp [hk, hlt]
  · by_cases hmem : n ∈ nodesAt levels
    · exact ⟨levels, Nat.lt_succ_self _, hmem⟩
    · obtain ⟨info, hinfo⟩ := hn
      rw [hnodes, if_neg hmem] at hinfo
      obtain ⟨k, hk, hn⟩ := h.known n ⟨info, hinfo⟩
      exact ⟨k, Nat.lt_succ_of_lt hk, hn⟩

/-- The next edge of a level can be added. -/
theorem addEdge (h : Drawn g levels linked callees) (hk : k < levels)
    (hj : linked k + 1 < lengthAt k) :
    ∃ g', g.addEdge (nodeAt k (linked k)) (nodeAt k (linked k + 1)) = .ok g' ∧
      Drawn g' levels (Function.update linked k (linked k + 1)) callees := by
  obtain ⟨g', hg', hprocs, hknown, hnodes⟩ :=
    Supergraph.addEdge_total (h.node hk (Nat.lt_of_succ_lt hj)) (h.node hk hj) rfl (by simp)
  refine ⟨g', hg', h.built.edge hg', hprocs.trans h.procs, fun l i => ?_, fun n hn => ?_⟩
  · rw [hnodes, h.nodes]
    by_cases hl : l = k
    · subst hl
      simp only [nodeAt_inj, true_and, Function.update_self, hk]
      by_cases htarget : i = linked l + 1
      · rw [if_pos htarget, if_pos (htarget ▸ hj), htarget, infoAt_target]
      · rw [if_neg htarget]
        by_cases hsource : i = linked l
        · rw [if_pos hsource, if_pos (hsource ▸ Nat.lt_of_succ_lt hj), hsource, infoAt_source]
        · rw [if_neg hsource, infoAt_other hsource htarget]
    · simp [hl]
  · exact h.known n (hknown n hn)

/-- The edges of a level can be added. -/
theorem addChain (h : Drawn g levels linked callees) (hk : k < levels) (hlinked : linked k = 0) :
    ∃ g', g.addChain (nodesAt k) = .ok g' ∧
      Drawn g' levels (Function.update linked k (lengthAt k - 1)) callees := by
  have hpairs : (nodesAt k).zip (nodesAt k).tail =
      (List.range (lengthAt k - 1)).map fun j => (nodeAt k j, nodeAt k (j + 1)) := by
    cases k <;> rfl
  rw [Supergraph.addChain, hpairs, List.foldlM_map]
  refine foldlM_range_total (fun m g => Drawn g levels (Function.update linked k m) callees) ?_
    fun m hm g hg => ?_
  · rw [← hlinked, Function.update_eq_self]
    exact h
  · obtain ⟨g', hg', hdrawn⟩ := hg.addEdge hk (by rw [Function.update_self]; omega)
    rw [Function.update_self] at hg' hdrawn
    rw [Function.update_idem] at hdrawn
    exact ⟨g', hg', hdrawn⟩

/-- A call of the next level can be added. -/
theorem addCall (h : Drawn g levels linked callees) (hk : k + 1 < levels) (hj : j < lengthAt k)
    (hnew : callees k j = []) :
    ∃ g', g.addCall (nodeAt k j) (procAt (k + 1)) = .ok g' ∧ Drawn g' levels linked
      fun l i => if l = k ∧ i = j then [procAt (k + 1)] else callees l i := by
  obtain ⟨g', hg', hprocs, hknown, hnodes⟩ := Supergraph.addCall_total h.built.consistent
    (h.mem_procs.2 hk) (h.node (Nat.lt_of_succ_lt hk) hj) (by simp [infoAt, hnew])
  refine ⟨g', hg', h.built.call hg', hprocs.trans h.procs, fun l i => ?_, fun n hn => ?_⟩
  · rw [hnodes, h.nodes]
    by_cases hl : l = k ∧ i = j
    · obtain ⟨rfl, rfl⟩ := hl
      simp [hj, Nat.lt_of_succ_lt hk, infoAt, hnew]
    · simp [hl]
  · exact h.known n (hknown n hn)

end Drawn

/-- The node calls the next level. -/
def callsAt (depth k j : Nat) : Prop := k < depth ∧ (j = 1 ∨ k = 0 ∧ j = 3)

instance (depth k j : Nat) : Decidable (callsAt depth k j) := inferInstanceAs (Decidable (_ ∧ _))

/-- The callees of a node. -/
def calleesAt (depth k j : Nat) : List String := if callsAt depth k j then [procAt (k + 1)] else []

/-- The program of a depth. -/
abbrev Drawing (depth : Nat) (g : Supergraph) : Prop :=
  Drawn g (depth + 1) (fun k => lengthAt k - 1) (calleesAt depth)

/-- The next level can be declared, with its edges. -/
theorem Drawn.addLevel {g : Supergraph} {i : Nat}
    (h : Drawn g i (fun k => if k < i then lengthAt k - 1 else 0) fun _ _ => []) :
    ∃ g₁ g₂, g.addProc (procAt i) (nodesAt i) = .ok g₁ ∧ g₁.addChain (nodesAt i) = .ok g₂ ∧
      Drawn g₂ (i + 1) (fun k => if k < i + 1 then lengthAt k - 1 else 0) fun _ _ => [] := by
  have hnone : (if i < i then lengthAt i - 1 else 0) = 0 := if_neg (Nat.lt_irrefl i)
  obtain ⟨g₁, hg₁, hdrawn₁⟩ := h.addProc hnone fun _ => rfl
  obtain ⟨g₂, hg₂, hdrawn₂⟩ := hdrawn₁.addChain (Nat.lt_succ_self i) hnone
  refine ⟨g₁, g₂, hg₁, hg₂, hdrawn₂.congr (fun k hk => ?_) fun _ _ _ => rfl⟩
  by_cases hki : k = i
  · subst hki
    simp
  · have hlt : k < i := by omega
    simp [hki, hlt, hk]

/-- The levels of the chain can be declared after `main`. -/
theorem Drawn.addLevels {g : Supergraph} (depth : Nat)
    (h : Drawn g 1 (fun k => if k < 1 then lengthAt k - 1 else 0) fun _ _ => []) :
    ∃ g', (List.range depth).foldlM (fun (g : Supergraph) i => do
        (← g.addProc (procName i) (chainNodes i)).addChain (chainNodes i)) g = .ok g' ∧
      Drawn g' (depth + 1) (fun k => lengthAt k - 1) fun _ _ => [] := by
  obtain ⟨g', hg', hdrawn⟩ := foldlM_range_total (fun i g => Drawn g (i + 1)
    (fun k => if k < i + 1 then lengthAt k - 1 else 0) fun _ _ => []) h
    fun i (_ : i < depth) g hg => by
      obtain ⟨g₁, g₂, hg₁, hg₂, hdrawn⟩ := hg.addLevel
      exact ⟨g₂, bind_eq_ok.2 ⟨g₁, hg₁, hg₂⟩, hdrawn⟩
  exact ⟨g', hg', hdrawn.congr (fun k hk => if_pos hk) fun _ _ _ => rfl⟩

/-- Each level of the chain but the last one can call the next one. -/
theorem Drawn.addCalls {g : Supergraph} {depth : Nat}
    (h : Drawn g (depth + 1) (fun k => lengthAt k - 1) fun _ _ => []) :
    ∃ g', (List.range (depth - 1)).foldlM (fun (g : Supergraph) i =>
        g.addCall (nodeName (procName i) 1) (procName (i + 1))) g = .ok g' ∧
      Drawn g' (depth + 1) (fun k => lengthAt k - 1)
        fun k j => if 0 < k ∧ k < depth ∧ j = 1 then [procAt (k + 1)] else [] := by
  obtain ⟨g', hg', hdrawn⟩ := foldlM_range_total (fun i g => Drawn g (depth + 1)
    (fun k => lengthAt k - 1) fun k j => if 0 < k ∧ k ≤ i ∧ j = 1 then [procAt (k + 1)] else [])
    (h.congr (fun _ _ => rfl) fun k _ j => (if_neg (by omega)).symm)
    fun i (hi : i < depth - 1) g hg => by
      obtain ⟨g', hg', hdrawn⟩ := hg.addCall (k := i + 1) (by omega) (by decide : 1 < 4)
        (if_neg (by omega))
      refine ⟨g', hg', hdrawn.congr (fun _ _ => rfl) fun k _ j => ?_⟩
      by_cases hk : k = i + 1 ∧ j = 1
      · obtain ⟨rfl, rfl⟩ := hk
        simp
      · have hiff : 0 < k ∧ k ≤ i + 1 ∧ j = 1 ↔ 0 < k ∧ k ≤ i ∧ j = 1 := by omega
        simp only [if_neg hk, hiff]
  refine ⟨g', hg', hdrawn.congr (fun _ _ => rfl) fun k _ j => ?_⟩
  have hiff : 0 < k ∧ k ≤ depth - 1 ∧ j = 1 ↔ 0 < k ∧ k < depth ∧ j = 1 := by omega
  simp only [hiff]

/-- `main` can call the chain twice. -/
theorem Drawn.addMainCalls {g : Supergraph} {depth : Nat} (hdepth : depth ≠ 0)
    (h : Drawn g (depth + 1) (fun k => lengthAt k - 1)
      fun k j => if 0 < k ∧ k < depth ∧ j = 1 then [procAt (k + 1)] else []) :
    ∃ g₁ g₂, g.addCall (nodeName "main" 1) (procName 0) = .ok g₁ ∧
      g₁.addCall (nodeName "main" 3) (procName 0) = .ok g₂ ∧ Drawing depth g₂ := by
  obtain ⟨g₁, hg₁, hdrawn₁⟩ := h.addCall (k := 0) (by omega) (by decide : 1 < 6)
    (if_neg (by omega))
  obtain ⟨g₂, hg₂, hdrawn₂⟩ := hdrawn₁.addCall (k := 0) (by omega) (by decide : 3 < 6)
    (by simp)
  refine ⟨g₁, g₂, hg₁, hg₂, hdrawn₂.congr (fun _ _ => rfl) fun k _ j => ?_⟩
  by_cases hk : k = 0
  · subst hk
    simp only [calleesAt, callsAt]
    grind
  · simp only [calleesAt, callsAt]
    grind

/-- The program can be built at every depth. -/
theorem exists_graph (depth : Nat) : ∃ g, graph depth = .ok g ∧ Drawing depth g := by
  obtain ⟨g₀, g₁, hmain, hchain, hdrawn₁⟩ := Drawn.addLevel (i := 0) .empty
  obtain ⟨g₂, hlevels, hdrawn₂⟩ := hdrawn₁.addLevels depth
  obtain ⟨g₃, hcalls, hdrawn₃⟩ := hdrawn₂.addCalls
  unfold graph
  by_cases hdepth : depth = 0
  · refine ⟨g₃, ?_, hdrawn₃.congr (fun _ _ => rfl) fun k _ j => ?_⟩
    · refine bind_eq_ok.2 ⟨g₀, hmain, bind_eq_ok.2 ⟨g₁, hchain, bind_eq_ok.2 ⟨g₂, hlevels,
        bind_eq_ok.2 ⟨g₃, hcalls, ?_⟩⟩⟩⟩
      rw [if_pos hdepth]
      rfl
    · rw [calleesAt, if_neg (by omega), if_neg fun h => by simp [callsAt, hdepth] at h]
  · obtain ⟨g₄, g₅, hfirst, hsecond, hdrawn⟩ := hdrawn₃.addMainCalls hdepth
    refine ⟨g₅, bind_eq_ok.2 ⟨g₀, hmain, bind_eq_ok.2 ⟨g₁, hchain, bind_eq_ok.2 ⟨g₂, hlevels,
      bind_eq_ok.2 ⟨g₃, hcalls, ?_⟩⟩⟩⟩, hdrawn⟩
    rw [if_neg hdepth]
    exact bind_eq_ok.2 ⟨g₄, hfirst, hsecond⟩

/-! ## Queries -/

section Queries

variable {depth : Nat} {g : Supergraph} (h : Drawing depth g) {k j : Nat}

include h

/-- There are six nodes in `main` and four at every other level. -/
theorem Drawing.size_nodes_le : g.nodes.size ≤ 4 * depth + 6 := by
  have hnames : ∀ n, g.Known n → n ∈ (List.range (depth + 1)).flatMap nodesAt := fun n hn => by
    obtain ⟨k, hk, hn⟩ := h.known n hn
    exact List.mem_flatMap.2 ⟨k, List.mem_range.2 hk, hn⟩
  have hlength : ∀ d, ((List.range (d + 1)).flatMap nodesAt).length = 4 * d + 6 := fun d => by
    induction d with
    | zero => rfl
    | succ d ih =>
      rw [List.range_succ, List.flatMap_append, List.length_append, ih]
      simp [nodesAt, nodes, lengthAt]
      omega
  exact hlength depth ▸ Supergraph.size_nodes_le hnames

theorem Drawing.length_procNames : g.procNames.length = depth + 1 := by
  simp [h.procs]

variable (hk : k ≤ depth)

include hk

theorem Drawing.procOf (hj : j < lengthAt k) : g.procOf (nodeAt k j) = .ok (procAt k) := by
  have hname : g.procNames[k]? = some (procAt k) := by
    simp [h.procs, List.getElem?_range (Nat.lt_succ_of_le hk)]
  simp only [Supergraph.procNames, Array.getElem?_toList, Array.getElem?_map,
    Option.map_eq_some_iff] at hname
  obtain ⟨P, hP, hname⟩ := hname
  exact Supergraph.procOf_eq_ok.2 ⟨_, P, h.node (Nat.lt_succ_of_le hk) hj, hP, hname⟩

theorem Drawing.procOf_iff {n : String} :
    g.procOf n = .ok (procAt k) ↔ ∃ j < lengthAt k, n = nodeAt k j := by
  constructor
  · intro hn
    obtain ⟨l, hl, hmem⟩ := h.known n (Supergraph.known_of_procOf hn)
    obtain ⟨j, hj, rfl⟩ := mem_nodesAt.1 hmem
    rw [h.procOf (Nat.le_of_lt_succ hl) hj] at hn
    obtain rfl := procAt_inj.1 (Except.ok.inj hn)
    exact ⟨j, hj, rfl⟩
  · rintro ⟨j, hj, rfl⟩
    exact h.procOf hk hj

theorem Drawing.isStart (hj : j < lengthAt k) :
    g.isStart (nodeAt k j) = .ok (decide (j = 0)) :=
  Supergraph.isStart_eq_ok.2 ⟨_, h.node (Nat.lt_succ_of_le hk) hj, rfl⟩

theorem Drawing.isExit (hj : j < lengthAt k) :
    g.isExit (nodeAt k j) = .ok (decide (j + 1 = lengthAt k)) :=
  Supergraph.isExit_eq_ok.2 ⟨_, h.node (Nat.lt_succ_of_le hk) hj, rfl⟩

theorem Drawing.callees (hj : j < lengthAt k) :
    g.callees (nodeAt k j) = .ok (calleesAt depth k j) :=
  Supergraph.callees_eq_ok.2 ⟨_, h.node (Nat.lt_succ_of_le hk) hj, rfl⟩

theorem Drawing.isCallSite (hj : j < lengthAt k) :
    g.isCallSite (nodeAt k j) = .ok (decide (callsAt depth k j)) := by
  refine Supergraph.isCallSite_eq_ok.2 ⟨_, h.node (Nat.lt_succ_of_le hk) hj, ?_⟩
  by_cases hc : callsAt depth k j <;> simp [infoAt, calleesAt, hc]

theorem Drawing.calls_iff (hj : j < lengthAt k) {p : String} :
    g.Calls (nodeAt k j) p ↔ callsAt depth k j ∧ p = procAt (k + 1) := by
  simp only [Supergraph.Calls, h.callees hk hj, Except.ok.injEq, exists_eq_left', calleesAt]
  split <;> simp_all

theorem Drawing.succ_iff (hj : j < lengthAt k) {m : String} :
    g.Succ (nodeAt k j) m ↔ j + 1 < lengthAt k ∧ m = nodeAt k (j + 1) := by
  have hsuccs : g.succs (nodeAt k j) =
      .ok (if j < lengthAt k - 1 then [nodeAt k (j + 1)] else []) :=
    Supergraph.succs_eq_ok.2 ⟨_, h.node (Nat.lt_succ_of_le hk) hj, rfl⟩
  have hlt : j < lengthAt k - 1 ↔ j + 1 < lengthAt k := by omega
  simp only [Supergraph.Succ, hsuccs, Except.ok.injEq, exists_eq_left', hlt]
  split <;> simp_all

theorem Drawing.startOf_iff {n : String} : g.StartOf (procAt k) n ↔ n = nodeAt k 0 := by
  rw [Supergraph.startOf_iff h.built.consistent, h.procOf_iff hk]
  constructor
  · rintro ⟨⟨j, hj, rfl⟩, hstart⟩
    rw [h.isStart hk hj] at hstart
    rw [of_decide_eq_true (Except.ok.inj hstart)]
  · rintro rfl
    exact ⟨⟨0, lengthAt_pos k, rfl⟩, h.isStart hk (lengthAt_pos k)⟩

theorem Drawing.exitOf_iff {n : String} :
    g.ExitOf (procAt k) n ↔ n = nodeAt k (lengthAt k - 1) := by
  have hpos := lengthAt_pos k
  rw [Supergraph.exitOf_iff h.built.consistent, h.procOf_iff hk]
  constructor
  · rintro ⟨⟨j, hj, rfl⟩, hexit⟩
    rw [h.isExit hk hj] at hexit
    rw [← of_decide_eq_true (Except.ok.inj hexit), Nat.add_sub_cancel]
  · rintro rfl
    refine ⟨⟨lengthAt k - 1, by omega, rfl⟩, ?_⟩
    rw [h.isExit hk (by omega), decide_eq_true (by omega)]

end Queries

/-! ## Statements -/

/-- The statement at a position of a level. -/
def statementAt : Nat → Nat → Option Statement
  | 0, 0 => some (.assignConst "x" 1)
  | 0, 2 => some (.assign "z" "x" ⟨1, 0, Affine.odd_one⟩)
  | _ + 1, 0 => some (.assign "x" "x" ⟨1, 1, Affine.odd_one⟩)
  | _ + 1, 2 => some (.assign "y" "x" ⟨3, 0, Affine.odd_three⟩)
  | _, _ => none

theorem statements_zero : statements 0 =
    (Std.TreeMap.empty.insert (nodeAt 0 0) (.assignConst "x" 1)).insert
      (nodeAt 0 2) (.assign "z" "x" ⟨1, 0, Affine.odd_one⟩) := rfl

theorem statements_succ (d : Nat) : statements (d + 1) =
    ((statements d).insert (nodeAt (d + 1) 0) (.assign "x" "x" ⟨1, 1, Affine.odd_one⟩)).insert
      (nodeAt (d + 1) 2) (.assign "y" "x" ⟨3, 0, Affine.odd_three⟩) := by
  simp only [statements, List.range_succ, List.foldl_append, List.foldl_cons, List.foldl_nil]
  rfl

theorem getElem?_statements (depth k j : Nat) :
    (statements depth)[nodeAt k j]? = if k ≤ depth then statementAt k j else none := by
  induction depth with
  | zero =>
    rw [statements_zero, getElem?_insert_eq, getElem?_insert_eq]
    match k, j with
    | 0, 0 | 0, 1 | 0, 2 | 0, j + 3 | k + 1, j => simp [statementAt]
  | succ d ih =>
    rw [statements_succ, getElem?_insert_eq, getElem?_insert_eq, ih]
    by_cases hk : k = d + 1
    · subst hk
      match j with
      | 0 | 1 | 2 | j + 3 => simp [statementAt]
    · have hle : k ≤ d + 1 ↔ k ≤ d := by omega
      simp [Ne.symm hk, hle]

end CallChain

end Tabulation
