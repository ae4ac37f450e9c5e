import Mathlib.Data.List.Dedup
import Tabulation.Proofs.CallLedger
import Tabulation.Proofs.Program

/-!
# The ledger after any history

The lists of calls are described by what was done to the ledger, `Op`, with no mention of entries
and links: `waiting` are the calls that were linked since their callee was purged, and `forwarding`
those that were linked with values since the ledger was cleared, newest first.

**Proper histories.** A call is linked under the position that it got when it was recorded, and
once.

**Correctness.** `Tracks` relates a ledger to its history, and every operation of a proper history
keeps it. In particular the entries of a purged list may be linked to entries that were recorded
before, but no list that begins later runs into them.
-/

namespace Tabulation

namespace CallLedger

/-! ## Histories -/

/-- What is done to a ledger. -/
inductive Op where
  | insert (c : CallRecord)
  | link (i : Nat) (forward : Bool)
  | purge (callee : ProcId)
  | clearByCallee
  | clear
  deriving DecidableEq, Repr

namespace Op

def perform (t : CallLedger) : Op → Except Fault CallLedger
  | insert c => .ok (t.insert c).2
  | link i forward => t.link i forward
  | purge callee => .ok (t.purgeCallee callee).2
  | clearByCallee => .ok t.clearByCallee
  | clear => .ok t.clear

def inserted? : Op → Option CallRecord
  | insert c => some c
  | _ => none

def linked? : Op → Option Nat
  | link i _ => some i
  | _ => none

def isClear : Op → Bool
  | clear => true
  | _ => false

/-- Whether no call waits for a callee any longer. -/
def endsWaiting (callee : ProcId) : Op → Bool
  | purge q => q = callee
  | clearByCallee | clear => true
  | _ => false

end Op

/-- The ledger after a history. -/
def after (ops : List Op) : Except Fault CallLedger := ops.foldlM Op.perform .empty

/-- What was done since the last operation of a kind, newest first. -/
def since (stop : Op → Bool) (ops : List Op) : List Op := ops.reverse.takeWhile (!stop ·)

/-- The calls that were recorded since the last clearing, each once and oldest first. -/
def recorded (ops : List Op) : List CallRecord :=
  ((since Op.isClear ops).filterMap Op.inserted?).dedup.reverse

/-- The positions that were linked since the last clearing. -/
def linked (ops : List Op) : List Nat := (since Op.isClear ops).filterMap Op.linked?

/-- The position and call that were linked, if the call is of interest. -/
def Op.call? (records : List CallRecord) (pick : CallRecord → Bool → Bool) :
    Op → Option (Nat × CallRecord)
  | .link i forward => (records[i]?.filter (pick · forward)).map (i, ·)
  | _ => none

/-- The calls of interest that were linked since the last operation of a kind, newest first. -/
def links (stop : Op → Bool) (pick : CallRecord → Bool → Bool) (ops : List Op) :
    List (Nat × CallRecord) := (since stop ops).filterMap (Op.call? (recorded ops) pick)

/-- The calls that wait for a callee that is entered with a fact. -/
def waiting (ops : List Op) (entry : FactId) (callee : ProcId) : List (Nat × CallRecord) :=
  links (Op.endsWaiting callee) (fun c _ => c.entry = entry ∧ c.callee = callee) ops

/-- The calls along which values are forwarded from a site. -/
def forwarding (ops : List Op) (source : FactId) (site : NodeId) : List (Nat × CallRecord) :=
  links Op.isClear (fun c forward => forward ∧ c.source = source ∧ c.site = site) ops

/-- A position can be linked if a call was recorded there that was not linked yet. -/
def Op.Allowed (ops : List Op) : Op → Prop
  | .link i _ => i < (recorded ops).length ∧ i ∉ linked ops
  | _ => True

instance (ops : List Op) : DecidablePred (Op.Allowed ops)
  | .link i _ => inferInstanceAs (Decidable (i < (recorded ops).length ∧ i ∉ linked ops))
  | .insert _ | .purge _ | .clearByCallee | .clear => isTrue trivial

/-- Whenever a position is linked, it can be. -/
def Proper (ops : List Op) : Prop :=
  ∀ k, ∀ h : k < ops.length, Op.Allowed (ops.take k) (ops.get ⟨k, h⟩)

instance : DecidablePred Proper := fun _ => Nat.decidableBallLT _ _

variable {ops : List Op} {op : Op} {t t' : CallLedger}

theorem proper_append : Proper (ops ++ [op]) ↔ Proper ops ∧ op.Allowed ops := by
  constructor
  · intro h
    refine ⟨fun k hk => ?_, ?_⟩
    · have := h k (by simp; omega)
      simpa [List.take_append_of_le_length (Nat.le_of_lt hk), List.getElem_append_left hk]
        using this
    · have := h ops.length (by simp)
      simpa using this
  · rintro ⟨h, hop⟩ k hk
    by_cases hlt : k < ops.length
    · have := h k hlt
      simpa [List.take_append_of_le_length (Nat.le_of_lt hlt), List.getElem_append_left hlt]
    · obtain rfl : k = ops.length := by simp at hk; omega
      simpa using hop

/-! ## One more operation -/

section Append

variable {stop : Op → Bool}

theorem since_stop (h : stop op = true) : since stop (ops ++ [op]) = [] := by
  simp [since, h]

theorem since_go (h : stop op = false) : since stop (ops ++ [op]) = op :: since stop ops := by
  simp [since, h]

end Append

theorem recorded_nodup (ops : List Op) : (recorded ops).Nodup :=
  List.nodup_reverse.2 (List.nodup_dedup _)

theorem recorded_insert (ops : List Op) (c : CallRecord) : recorded (ops ++ [.insert c]) =
    if c ∈ recorded ops then recorded ops else recorded ops ++ [c] := by
  have hcons : (since Op.isClear (ops ++ [.insert c])).filterMap Op.inserted? =
      c :: (since Op.isClear ops).filterMap Op.inserted? := by rw [since_go rfl]; rfl
  have hmem : c ∈ recorded ops ↔ c ∈ (since Op.isClear ops).filterMap Op.inserted? := by
    simp [recorded]
  rw [recorded, hcons]
  split
  · next h =>
    rw [List.dedup_cons_of_mem (hmem.1 h)]
    rfl
  · next h =>
    rw [List.dedup_cons_of_notMem (fun hc => h (hmem.2 hc)), List.reverse_cons]
    rfl

/-- Operations that record and clear nothing leave the records. -/
theorem recorded_append (hclear : op.isClear = false) (hno : op.inserted? = none) :
    recorded (ops ++ [op]) = recorded ops := by
  rw [recorded, since_go hclear, List.filterMap_cons_none hno]
  rfl

theorem recorded_grows (ops : List Op) (hclear : op.isClear = false) :
    recorded ops <+: recorded (ops ++ [op]) := by
  cases op with
  | insert c =>
    rw [recorded_insert]
    split
    · exact List.prefix_refl _
    · exact List.prefix_append ..
  | link i forward => rw [recorded_append rfl rfl]
  | purge callee => rw [recorded_append rfl rfl]
  | clearByCallee => rw [recorded_append rfl rfl]
  | clear => cases hclear

theorem mem_since_isClear {stop : Op → Bool} (hstop : stop .clear = true)
    (h : op ∈ since stop ops) : op ∈ since Op.isClear ops := by
  induction ops using List.reverseRecOn with
  | nil => cases h
  | append_singleton ops op' ih =>
    cases hop' : stop op' with
    | true =>
      rw [since_stop hop'] at h
      cases h
    | false =>
      have hclear : op'.isClear = false := by
        cases op' with
        | clear => rw [hstop] at hop'; cases hop'
        | _ => rfl
      rw [since_go hop'] at h
      rw [since_go hclear]
      exact (List.mem_cons.1 h).elim (· ▸ List.mem_cons_self) fun h => List.mem_cons_of_mem _ (ih h)

theorem lt_of_linked (h : Proper ops) {i : Nat} (hi : i ∈ linked ops) :
    i < (recorded ops).length := by
  induction ops using List.reverseRecOn with
  | nil => cases hi
  | append_singleton ops op ih =>
    obtain ⟨hops, hop⟩ := proper_append.1 h
    cases hclear : op.isClear with
    | true =>
      rw [linked, since_stop hclear] at hi
      cases hi
    | false =>
      refine Nat.lt_of_lt_of_le ?_ (recorded_grows ops hclear).length_le
      rw [linked, since_go hclear] at hi
      obtain ⟨op', hop', hi'⟩ := List.mem_filterMap.1 hi
      rcases List.mem_cons.1 hop' with rfl | hop'
      · cases op' <;> cases hi'
        exact hop.1
      · exact ih hops (List.mem_filterMap.2 ⟨op', hop', hi'⟩)

section Links

variable {stop : Op → Bool} {pick : CallRecord → Bool → Bool} {i : Nat}

theorem mem_linked (hstop : stop .clear = true) (hi : i ∈ (links stop pick ops).map (·.1)) :
    i ∈ linked ops := by
  obtain ⟨x, hx, rfl⟩ := List.mem_map.1 hi
  obtain ⟨op, hop, hx⟩ := List.mem_filterMap.1 hx
  refine List.mem_filterMap.2 ⟨op, mem_since_isClear hstop hop, ?_⟩
  cases op with
  | link j forward =>
    obtain ⟨c, -, rfl⟩ := Option.map_eq_some_iff.1 hx
    rfl
  | _ => cases hx

theorem links_stop (h : stop op = true) : links stop pick (ops ++ [op]) = [] := by
  rw [links, since_stop h]
  rfl

theorem links_link {c : CallRecord} {forward : Bool} (hgo : stop (.link i forward) = false)
    (hc : (recorded ops)[i]? = some c) : links stop pick (ops ++ [.link i forward]) =
      if pick c forward then (i, c) :: links stop pick ops else links stop pick ops := by
  have hcall : Op.call? (recorded ops) pick (.link i forward) =
      if pick c forward then some (i, c) else none := by
    rw [Op.call?, hc]
    cases hpick : pick c forward <;> simp [hpick]
  rw [links, since_go hgo, recorded_append rfl rfl, List.filterMap_cons, hcall]
  cases pick c forward <;> rfl

/-- What was linked before is not affected by new records. -/
theorem links_append (h : Proper ops) (hstop : stop .clear = true) (hgo : stop op = false)
    (hclear : op.isClear = false) (hno : op.linked? = none) :
    links stop pick (ops ++ [op]) = links stop pick ops := by
  have hcall : Op.call? (recorded (ops ++ [op])) pick op = none := by
    cases op with
    | link i forward => cases hno
    | _ => rfl
  rw [links, since_go hgo, List.filterMap_cons_none hcall]
  refine List.filterMap_congr fun op' hop' => ?_
  cases op' with
  | link i forward =>
    have hi : i ∈ linked ops := List.mem_filterMap.2 ⟨_, mem_since_isClear hstop hop', rfl⟩
    obtain ⟨more, hmore⟩ := recorded_grows ops hclear
    rw [Op.call?, Op.call?, ← hmore, List.getElem?_append_left (lt_of_linked h hi)]
  | _ => rfl

end Links

/-! ## Ledgers and their histories -/

/-- The ledger is what the history says. -/
structure Tracks (ops : List Op) (t : CallLedger) : Prop where
  wf : t.Wf
  records : t.records.toList = recorded ops
  into : ∀ e p, t.IntoChain (pack e.val p.val) (waiting ops e p)
  site : ∀ a n, t.FromChain (pack a.val n.val) (forwarding ops a n)

namespace Tracks

theorem empty : Tracks [] .empty where
  wf := wf_empty
  records := by simp [recorded, since, CallLedger.records, CallLedger.empty]
  into e p := intoChain_empty _
  site a n := fromChain_empty _

theorem mem_iff (h : Tracks ops t) {c : CallRecord} : c ∈ t ↔ c ∈ recorded ops := by
  rw [h.wf.known, h.records]

theorem insert (h : Tracks ops t) (hops : Proper ops) (c : CallRecord) :
    Tracks (ops ++ [.insert c]) (t.insert c).2 where
  wf := h.wf.insert c
  records := by
    rw [recorded_insert]
    split
    · next hc => rw [insert_of_mem (h.mem_iff.2 hc), h.records]
    · next hc =>
      rw [records_insert (fun hmem => hc (h.mem_iff.1 hmem)), Array.toList_push, h.records]
  into e p := by
    rw [waiting, links_append hops rfl rfl rfl rfl]
    exact (h.into e p).insert c
  site a n := by
    rw [forwarding, links_append hops rfl rfl rfl rfl]
    exact (h.site a n).insert c

/-- A position that was not linked since the last clearing is in no list. -/
theorem linkable (h : Tracks ops t) {i : Nat} (hi : i ∉ linked ops) : t.Linkable i where
  toThreaded := h.wf.toThreaded
  notInto key xs hxs hmem := by
    have hchain := h.into ⟨(unpack key).1⟩ ⟨(unpack key).2⟩
    rw [pack_unpack] at hchain
    rw [Chain.unique hxs hchain] at hmem
    exact hi (mem_linked rfl hmem)
  notFrom key xs hxs hmem := by
    have hchain := h.site ⟨(unpack key).1⟩ ⟨(unpack key).2⟩
    rw [pack_unpack] at hchain
    rw [Chain.unique hxs hchain] at hmem
    exact hi (mem_linked rfl hmem)

theorem link (h : Tracks ops t) {i : Nat} {forward : Bool}
    (hop : Op.Allowed ops (.link i forward)) :
    ∃ t', t.link i forward = .ok t' ∧ Tracks (ops ++ [.link i forward]) t' := by
  obtain ⟨hlt, hnew⟩ := hop
  have hfree := h.linkable hnew
  obtain ⟨c, hc⟩ : ∃ c, (recorded ops)[i]? = some c := ⟨_, List.getElem?_eq_getElem hlt⟩
  have hi : t.records[i]? = some c := by rw [← Array.getElem?_toList, h.records, hc]
  obtain ⟨t', ht'⟩ := link_total forward hi
  obtain ⟨hrecords, -⟩ := link_records ht' hi
  refine ⟨t', ht', h.wf.link ht' hi hfree, ?_, fun e p => ?_, fun a n => ?_⟩
  · rw [hrecords, h.records, recorded_append rfl rfl]
  · have hchain := link_into ht' hi (h.into e p) (hfree.notInto _ _ (h.into e p))
    simp only [CallRecord.calleeKey_eq] at hchain
    rw [waiting, links_link rfl hc]
    simp only [decide_eq_true_eq]
    exact hchain
  · have hchain := link_from ht' hi (h.site a n) (hfree.notFrom _ _ (h.site a n))
    simp only [CallRecord.siteKey_eq] at hchain
    rw [forwarding, links_link rfl hc]
    simp only [decide_eq_true_eq]
    exact hchain

/-- When lists of waiting calls are forgotten, the others and those of the sites stay. -/
theorem forget (h : Tracks ops t) (hops : Proper ops) (hforget : t.Forgets t')
    (hclear : op.isClear = false) (hrec : op.inserted? = none) (hlink : op.linked? = none)
    (hinto : ∀ (e : FactId) (p : ProcId), t'.byCallee[pack e.val p.val]? =
      if op.endsWaiting p then none else t.byCallee[pack e.val p.val]?) :
    Tracks (ops ++ [op]) t' where
  wf := hforget.wf h.wf
  records := by rw [hforget.records, h.records, recorded_append hclear hrec]
  into e p := by
    rw [IntoChain, hinto, hforget.entries]
    split
    · next hends =>
      rw [waiting, links_stop hends]
      exact .nil
    · next hends =>
      rw [waiting, links_append hops rfl (Bool.eq_false_iff.2 hends) hclear hlink]
      exact h.into e p
  site a n := by
    rw [FromChain, hforget.bySite, hforget.entries, forwarding,
      links_append hops rfl hclear hclear hlink]
    exact h.site a n

theorem clear (t : CallLedger) : Tracks (ops ++ [.clear]) t.clear where
  wf := wf_empty
  records := by rw [recorded, since_stop rfl]; exact empty.records
  into e p := by
    rw [waiting, links_stop rfl]
    exact empty.into e p
  site a n := by
    rw [forwarding, links_stop rfl]
    exact empty.site a n

/-- **One operation.** -/
theorem perform (h : Tracks ops t) (hops : Proper ops) (hop : op.Allowed ops) :
    ∃ t', op.perform t = .ok t' ∧ Tracks (ops ++ [op]) t' := by
  cases op with
  | insert c => exact ⟨_, rfl, h.insert hops c⟩
  | link i forward => exact h.link hop
  | purge callee =>
    refine ⟨_, rfl, h.forget hops (forgets_purgeCallee t callee) rfl rfl rfl fun e p => ?_⟩
    have hp : p.val = callee.val ↔ callee = p := by
      cases p; cases callee
      simp [eq_comm]
    simp only [byCallee_purgeCallee, unpack_pack, hp, Op.endsWaiting, decide_eq_true_eq]
  | clearByCallee =>
    exact ⟨_, rfl, h.forget hops (forgets_clearByCallee t) rfl rfl rfl fun e p => by
      simp [CallLedger.clearByCallee, Op.endsWaiting]⟩
  | clear => exact ⟨_, rfl, .clear t⟩

end Tracks

/-- Positions with different calls that are listed once list their calls once. -/
theorem Tracks.nodup (h : Tracks ops t) {next : LedgerEntry → Option Nat} {head : Option Nat}
    {xs : List (Nat × CallRecord)} (hxs : Chain t.entries next head xs) :
    (xs.map (·.2)).Nodup := by
  have hget : ∀ x ∈ xs, (recorded ops)[x.1]? = some x.2 := fun x hx => by
    obtain ⟨e, he, heq⟩ := hxs.getElem? x hx
    rw [← h.records, Array.getElem?_toList, getElem?_records, he, ← heq]
    rfl
  refine (List.Nodup.of_map _ hxs.nodup).map_on fun x hx y hy heq => ?_
  have hlt : x.1 < (recorded ops).length := (List.getElem?_eq_some_iff.1 (hget x hx)).1
  have hsame : (recorded ops)[x.1]? = (recorded ops)[y.1]? := by rw [hget x hx, hget y hy, heq]
  exact Prod.ext ((List.getElem?_inj hlt (recorded_nodup ops)).1 hsame) heq

namespace Purged

/-- A call of the procedure 1 from a site. -/
def call (site : UInt32) : CallRecord := ⟨.identity, ⟨0⟩, ⟨1⟩, ⟨site⟩, ⟨5⟩⟩

/-- Two calls wait when their callee is purged; one of them is recorded again, and a third waits. -/
def history : List Op :=
  [.insert (call 10), .link 0 true, .insert (call 20), .link 1 true, .purge ⟨1⟩, .insert (call 10),
    .insert (call 30), .link 2 true]

end Purged

end CallLedger

end Tabulation
