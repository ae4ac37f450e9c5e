import Tabulation.CallLedger
import Tabulation.Proofs.Maps

/-!
# The lists of calls

The lists of the ledger run through its entries. `Chain` is a walk along the links from a position
to the end of a list; as links are a function of the position, a walk that ends passes no position
twice, so it is never longer than the ledger and `follow` sees all of it.

**Well-formed ledgers.** In a well-formed ledger every list that the tables know of comes to an end,
and holds calls of its key only. Links of entries that are in no list lead anywhere: when a callee
is purged its entries keep theirs.

**Linking.** `link_into` and `link_from` say what linking does to the lists: the record becomes the
first of its own, and no other list changes, as long as the record is in none of them before,
`Linkable`.

**Purging.** `Forgets` says that lists of waiting calls are gone, and that the others stay.
-/

namespace Tabulation

theorem CallRecord.calleeKey_eq {c : CallRecord} {e : FactId} {p : ProcId} :
    c.calleeKey = pack e.val p.val ↔ c.entry = e ∧ c.callee = p := by
  obtain ⟨_, _, ⟨p'⟩, _, ⟨e'⟩⟩ := c
  cases e; cases p
  simp [calleeKey, pack_inj]

theorem CallRecord.siteKey_eq {c : CallRecord} {a : FactId} {n : NodeId} :
    c.siteKey = pack a.val n.val ↔ c.source = a ∧ c.site = n := by
  obtain ⟨_, ⟨a'⟩, _, ⟨n'⟩, _⟩ := c
  cases a; cases n
  simp [siteKey, pack_inj]

namespace CallLedger

variable {t t' : CallLedger} {c c' : CallRecord} {i : Nat} {forward : Bool}

/-! ## Walks along the links -/

/-- Following the links from a position leads past the positions and calls of a list to its end. -/
inductive Chain (entries : Array LedgerEntry) (next : LedgerEntry → Option Nat) :
    Option Nat → List (Nat × CallRecord) → Prop
  | nil : Chain entries next none []
  | cons {i : Nat} {e : LedgerEntry} {xs : List (Nat × CallRecord)} : entries[i]? = some e →
      Chain entries next (next e) xs → Chain entries next (some i) ((i, e.call) :: xs)

namespace Chain

variable {entries entries' : Array LedgerEntry} {next : LedgerEntry → Option Nat}
  {head : Option Nat} {xs ys : List (Nat × CallRecord)}

theorem unique (h : Chain entries next head xs) (h' : Chain entries next head ys) : xs = ys := by
  induction h generalizing ys with
  | nil => cases h'; rfl
  | cons he _ ih =>
    cases h' with
    | cons he' h' =>
      obtain rfl := Option.some.inj (he.symm.trans he')
      rw [ih h']

/-- A position that is passed starts a walk that is no longer. -/
theorem exists_of_mem (h : Chain entries next head xs) (hi : i ∈ xs.map (·.1)) :
    ∃ ys, Chain entries next (some i) ys ∧ ys.length ≤ xs.length := by
  induction h with
  | nil => cases hi
  | @cons j e xs he h ih =>
    rcases List.mem_cons.1 hi with rfl | hi
    · exact ⟨_, .cons he h, Nat.le_refl _⟩
    · obtain ⟨ys, hys, hle⟩ := ih hi
      exact ⟨ys, hys, Nat.le_succ_of_le hle⟩

theorem nodup (h : Chain entries next head xs) : (xs.map (·.1)).Nodup := by
  induction h with
  | nil => exact List.nodup_nil
  | @cons i e xs he h ih =>
    refine List.nodup_cons.2 ⟨fun hi => ?_, ih⟩
    -- A walk that comes back to `i` would be longer than itself.
    obtain ⟨ys, hys, hle⟩ := h.exists_of_mem hi
    rw [hys.unique (.cons he h), List.length_cons] at hle
    omega

theorem getElem? (h : Chain entries next head xs) :
    ∀ x ∈ xs, ∃ e, entries[x.1]? = some e ∧ e.call = x.2 := by
  induction h with
  | nil => exact fun x hx => absurd hx List.not_mem_nil
  | cons he _ ih =>
    intro x hx
    rcases List.mem_cons.1 hx with rfl | hx
    · exact ⟨_, he, rfl⟩
    · exact ih x hx

theorem length_le (h : Chain entries next head xs) : xs.length ≤ entries.size := by
  have hsub : xs.map (·.1) ⊆ List.range entries.size := fun i hi => by
    obtain ⟨x, hx, rfl⟩ := List.mem_map.1 hi
    obtain ⟨e, he, -⟩ := h.getElem? x hx
    exact List.mem_range.2 (Array.getElem?_eq_some_iff.1 he).1
  simpa using (h.nodup.subperm hsub).length_le

theorem follow_eq (h : Chain entries next head xs) {n : Nat} (hn : xs.length ≤ n) :
    follow entries next n head = xs.map (·.2) := by
  induction n generalizing head xs with
  | zero =>
    obtain rfl := List.length_eq_zero_iff.1 (Nat.le_zero.1 hn)
    rfl
  | succ n ih =>
    cases h with
    | nil => rfl
    | cons he h =>
      simp only [follow, he, List.map_cons]
      rw [ih h (Nat.le_of_succ_le_succ hn)]

/-- Entries that are not passed may change, and so may links of the other kind. -/
theorem congr (h : Chain entries next head xs)
    (hsame : ∀ x ∈ xs, ∀ e, entries[x.1]? = some e →
      ∃ e', entries'[x.1]? = some e' ∧ e'.call = e.call ∧ next e' = next e) :
    Chain entries' next head xs := by
  induction h with
  | nil => exact .nil
  | cons he _ ih =>
    obtain ⟨e', he', hcall, hnext⟩ := hsame _ List.mem_cons_self _ he
    rw [← hcall]
    refine .cons he' ?_
    rw [hnext]
    exact ih fun x hx => hsame x (List.mem_cons_of_mem _ hx)

end Chain

/-! ## Well-formed ledgers -/

/-- The calls that wait for the summaries of a key. -/
def IntoChain (t : CallLedger) (key : UInt64) : List (Nat × CallRecord) → Prop :=
  Chain t.entries (·.nextInto) t.byCallee[key]?

/-- The calls along which the values of a key are forwarded. -/
def FromChain (t : CallLedger) (key : UInt64) : List (Nat × CallRecord) → Prop :=
  Chain t.entries (·.nextFrom) t.bySite[key]?

theorem callsInto_eq {e : FactId} {p : ProcId} {xs : List (Nat × CallRecord)}
    (h : t.IntoChain (pack e.val p.val) xs) : t.callsInto e p = xs.map (·.2) :=
  Chain.follow_eq h h.length_le

theorem callsFrom_eq {a : FactId} {n : NodeId} {xs : List (Nat × CallRecord)}
    (h : t.FromChain (pack a.val n.val) xs) : t.callsFrom a n = xs.map (·.2) :=
  Chain.follow_eq h h.length_le

/-- All lists come to an end and hold calls of their key. -/
structure Threaded (t : CallLedger) : Prop where
  into : ∀ key, ∃ xs, t.IntoChain key xs ∧ ∀ x ∈ xs, x.2.calleeKey = key
  site : ∀ key, ∃ xs, t.FromChain key xs ∧ ∀ x ∈ xs, x.2.siteKey = key

/-- A record that is in none of the lists. -/
structure Linkable (t : CallLedger) (i : Nat) : Prop extends t.Threaded where
  notInto : ∀ key xs, t.IntoChain key xs → i ∉ xs.map (·.1)
  notFrom : ∀ key xs, t.FromChain key xs → i ∉ xs.map (·.1)

/-- The calls that were recorded. -/
instance : Membership CallRecord CallLedger := ⟨fun t c => t.known.contains c = true⟩

theorem mem_iff : c ∈ t ↔ t.known.contains c = true := Iff.rfl

/-- The row of records and the set of known calls agree, and the lists are in order. -/
structure Wf (t : CallLedger) : Prop extends t.Threaded where
  known : ∀ c, c ∈ t ↔ c ∈ t.records.toList

theorem intoChain_empty (key : UInt64) : empty.IntoChain key [] := by
  simpa [IntoChain, empty] using Chain.nil

theorem fromChain_empty (key : UInt64) : empty.FromChain key [] := by
  simpa [FromChain, empty] using Chain.nil

theorem records_empty : empty.records = #[] := Array.map_empty

theorem wf_empty : empty.Wf where
  into key := ⟨[], intoChain_empty key, by simp⟩
  site key := ⟨[], fromChain_empty key, by simp⟩
  known c := by simp [mem_iff, empty, records]

theorem mem_edgeRefs (h : t.Wf) (hc : c ∈ t) : c.edge ∈ t.edgeRefs := by
  obtain ⟨e, he, rfl⟩ : ∃ e ∈ t.entries.toList, e.call = c := by
    simpa [records] using (h.known c).1 hc
  exact List.mem_map.2 ⟨e, he, rfl⟩

theorem exists_of_mem_edgeRefs (h : t.Wf) {ef : EdgeRef} (hef : ef ∈ t.edgeRefs) :
    ∃ c ∈ t, c.edge = ef := by
  obtain ⟨e, he, rfl⟩ := List.mem_map.1 hef
  refine ⟨e.call, (h.known e.call).2 ?_, rfl⟩
  rw [records, Array.toList_map]
  exact List.mem_map_of_mem he

/-! ## Recording -/

theorem insert_of_mem (h : c ∈ t) : t.insert c = (none, t) := if_pos h

theorem insert_of_not_mem (h : c ∉ t) :
    t.insert c = (some t.records.size,
      { t with entries := t.entries.push ⟨c, none, none⟩, known := t.known.insert c }) := by
  rw [records, Array.size_map]
  exact if_neg h

theorem records_insert (h : c ∉ t) : (t.insert c).2.records = t.records.push c := by
  rw [insert_of_not_mem h]
  simp [records]

theorem getElem?_insert (h : c ∉ t) : (t.insert c).2.records[t.records.size]? = some c := by
  rw [records_insert h, Array.getElem?_push_size]

theorem mem_insert : c' ∈ (t.insert c).2 ↔ c' = c ∨ c' ∈ t := by
  by_cases h : c ∈ t
  · rw [insert_of_mem h]
    constructor
    · exact .inr
    · rintro (rfl | hc)
      · exact h
      · exact hc
  · rw [insert_of_not_mem h]
    exact (contains_insert_iff ..).trans (or_congr_left eq_comm)

/-- Recording a call leaves the entries and lists that there are. -/
theorem insert_entries (c : CallRecord) : (∀ (i : Nat) (e : LedgerEntry), t.entries[i]? = some e →
      (t.insert c).2.entries[i]? = some e) ∧
    (t.insert c).2.byCallee = t.byCallee ∧ (t.insert c).2.bySite = t.bySite := by
  by_cases h : c ∈ t
  · rw [insert_of_mem h]
    exact ⟨fun _ _ he => he, rfl, rfl⟩
  · rw [insert_of_not_mem h]
    refine ⟨fun i e he => ?_, rfl, rfl⟩
    rw [Array.getElem?_push, if_neg]
    · exact he
    · exact Nat.ne_of_lt (Array.getElem?_eq_some_iff.1 he).1

theorem IntoChain.insert {key : UInt64} {xs : List (Nat × CallRecord)} (h : t.IntoChain key xs)
    (c : CallRecord) : (t.insert c).2.IntoChain key xs := by
  obtain ⟨hentries, hinto, -⟩ := insert_entries (t := t) c
  rw [IntoChain, hinto]
  exact Chain.congr h fun x _ e he => ⟨e, hentries _ e he, rfl, rfl⟩

theorem FromChain.insert {key : UInt64} {xs : List (Nat × CallRecord)} (h : t.FromChain key xs)
    (c : CallRecord) : (t.insert c).2.FromChain key xs := by
  obtain ⟨hentries, -, hfrom⟩ := insert_entries (t := t) c
  rw [FromChain, hfrom]
  exact Chain.congr h fun x _ e he => ⟨e, hentries _ e he, rfl, rfl⟩

theorem Threaded.insert (h : t.Threaded) (c : CallRecord) : (t.insert c).2.Threaded where
  into key := (h.into key).imp fun _ hxs => hxs.imp_left (·.insert c)
  site key := (h.site key).imp fun _ hxs => hxs.imp_left (·.insert c)

theorem Wf.insert (h : t.Wf) (c : CallRecord) : (t.insert c).2.Wf where
  toThreaded := h.toThreaded.insert c
  known c' := by
    rw [mem_insert]
    by_cases hc : c ∈ t
    · rw [insert_of_mem hc, ← h.known c']
      constructor
      · rintro (rfl | hc')
        · exact hc
        · exact hc'
      · exact .inr
    · rw [records_insert hc, h.known c']
      simp [or_comm]

theorem callsInto_insert (h : t.Threaded) (e : FactId) (p : ProcId) :
    (t.insert c).2.callsInto e p = t.callsInto e p := by
  obtain ⟨xs, hxs, -⟩ := h.into (pack e.val p.val)
  rw [callsInto_eq hxs, callsInto_eq (hxs.insert c)]

theorem callsFrom_insert (h : t.Threaded) (a : FactId) (n : NodeId) :
    (t.insert c).2.callsFrom a n = t.callsFrom a n := by
  obtain ⟨xs, hxs, -⟩ := h.site (pack a.val n.val)
  rw [callsFrom_eq hxs, callsFrom_eq (hxs.insert c)]

/-- A new record can be linked. -/
theorem Threaded.linkable (h : t.Threaded) (c : CallRecord) :
    (t.insert c).2.Linkable t.records.size := by
  have hout : ∀ {next head} {xs : List (Nat × CallRecord)}, Chain t.entries next head xs →
      t.records.size ∉ xs.map (·.1) := fun hxs hin => by
    obtain ⟨x, hx, heq⟩ := List.mem_map.1 hin
    obtain ⟨e, he, -⟩ := hxs.getElem? x hx
    have hlt := (Array.getElem?_eq_some_iff.1 he).1
    rw [heq, records, Array.size_map] at hlt
    omega
  refine { h.insert c with notInto := fun key xs hxs => ?_, notFrom := fun key xs hxs => ?_ }
  · obtain ⟨ys, hys, -⟩ := h.into key
    rw [Chain.unique hxs (hys.insert c)]
    exact hout hys
  · obtain ⟨ys, hys, -⟩ := h.site key
    rw [Chain.unique hxs (hys.insert c)]
    exact hout hys

/-! ## Linking -/

theorem getElem?_records : t.records[i]? = t.entries[i]?.map (·.call) := by
  simp [records]

theorem get_eq_ok : t.get i = .ok c ↔ t.records[i]? = some c := by
  unfold get
  rw [getElem?_records]
  cases t.entries[i]? <;> simp

theorem link_total (forward : Bool) (hi : t.records[i]? = some c) :
    ∃ t', t.link i forward = .ok t' := by
  unfold link
  rw [get_eq_ok.2 hi]
  cases forward
  · exact ⟨_, rfl⟩
  · exact ⟨_, rfl⟩

/-- What a ledger consists of after a record was linked. -/
theorem link_eq_ok (h : t.link i forward = .ok t') (hi : t.records[i]? = some c) :
    t' = { t with
      entries := t.entries.modify i fun e => { e with
        nextInto := t.byCallee[c.calleeKey]?
        nextFrom := if forward then t.bySite[c.siteKey]? else e.nextFrom }
      byCallee := t.byCallee.insert c.calleeKey i
      bySite := if forward then t.bySite.insert c.siteKey i else t.bySite } := by
  unfold link at h
  rw [get_eq_ok.2 hi] at h
  cases forward with
  | false => exact (Except.ok.inj h).symm
  | true =>
    refine (Except.ok.inj h).symm.trans ?_
    have hmodify : ∀ (f g : LedgerEntry → LedgerEntry),
        (t.entries.modify i f).modify i g = t.entries.modify i (g ∘ f) := fun f g => by
      ext j <;> simp [Array.getElem_modify]
      split <;> simp_all
    simp only [hmodify]
    rfl

theorem link_records (h : t.link i forward = .ok t') (hi : t.records[i]? = some c) :
    t'.records = t.records ∧ t'.known = t.known := by
  rw [link_eq_ok h hi]
  refine ⟨?_, rfl⟩
  ext j <;> simp [records, Array.getElem_modify]
  split <;> rfl

/-- The other entries stay, and the linked one keeps its call. -/
theorem link_entries (h : t.link i forward = .ok t') (hi : t.records[i]? = some c) :
    (∃ e, t'.entries[i]? = some e ∧ e.call = c ∧ e.nextInto = t.byCallee[c.calleeKey]? ∧
      (forward = true → e.nextFrom = t.bySite[c.siteKey]?)) ∧
    ∀ (j : Nat) (e : LedgerEntry), t.entries[j]? = some e → ∃ e', t'.entries[j]? = some e' ∧
      e'.call = e.call ∧ (j ≠ i → e' = e) ∧ (forward = false → e'.nextFrom = e.nextFrom) := by
  rw [link_eq_ok h hi]
  rw [getElem?_records, Option.map_eq_some_iff] at hi
  obtain ⟨e, he, rfl⟩ := hi
  simp only [Array.getElem?_modify]
  refine ⟨⟨{ e with
    nextInto := t.byCallee[e.call.calleeKey]?
    nextFrom := if forward then t.bySite[e.call.siteKey]? else e.nextFrom }, ?_, rfl, rfl,
      fun hf => if_pos hf⟩, fun j e' he' => ?_⟩
  · rw [if_pos trivial, he]
    rfl
  split
  · next heq =>
    rw [he']
    exact ⟨_, rfl, rfl, fun hne => absurd heq.symm hne, fun hf => by simp [hf]⟩
  · exact ⟨e', he', rfl, fun _ => rfl, fun _ => rfl⟩

/-- **The record becomes the first of the list of its callee; the others stay.** -/
theorem link_into (h : t.link i forward = .ok t') (hi : t.records[i]? = some c) {key : UInt64}
    {xs : List (Nat × CallRecord)} (hxs : t.IntoChain key xs) (hfree : i ∉ xs.map (·.1)) :
    t'.IntoChain key (if c.calleeKey = key then (i, c) :: xs else xs) := by
  obtain ⟨⟨e, he, hcall, hnext, -⟩, hsame⟩ := link_entries h hi
  have hxs' : Chain t'.entries (·.nextInto) t.byCallee[key]? xs :=
    Chain.congr hxs fun x hx e he => by
      obtain ⟨e', he', -, heq, -⟩ := hsame _ e he
      obtain rfl := heq fun heq => hfree (heq ▸ List.mem_map_of_mem hx)
      exact ⟨e', he', rfl, rfl⟩
  have hheads : t'.byCallee[key]? = if c.calleeKey = key then some i else t.byCallee[key]? := by
    rw [link_eq_ok h hi]
    exact getElem?_insert_eq ..
  rw [IntoChain, hheads]
  split
  · next hkey =>
    subst hkey
    rw [← hcall]
    refine .cons he ?_
    rw [hnext]
    exact hxs'
  · exact hxs'

/-- **If values are forwarded, the record becomes the first of the list of its site.** -/
theorem link_from (h : t.link i forward = .ok t') (hi : t.records[i]? = some c) {key : UInt64}
    {xs : List (Nat × CallRecord)} (hxs : t.FromChain key xs) (hfree : i ∉ xs.map (·.1)) :
    t'.FromChain key (if forward = true ∧ c.siteKey = key then (i, c) :: xs else xs) := by
  obtain ⟨⟨e, he, hcall, -, hnext⟩, hsame⟩ := link_entries h hi
  have hxs' : Chain t'.entries (·.nextFrom) t.bySite[key]? xs :=
    Chain.congr hxs fun x hx e he => by
      obtain ⟨e', he', -, heq, -⟩ := hsame _ e he
      obtain rfl := heq fun heq => hfree (heq ▸ List.mem_map_of_mem hx)
      exact ⟨e', he', rfl, rfl⟩
  have hheads : t'.bySite[key]? =
      if forward = true ∧ c.siteKey = key then some i else t.bySite[key]? := by
    rw [link_eq_ok h hi]
    cases forward
    · simp
    · simpa using getElem?_insert_eq ..
  rw [FromChain, hheads]
  split
  · next hkey =>
    obtain ⟨hf, rfl⟩ := hkey
    rw [← hcall]
    refine .cons he ?_
    rw [hnext hf]
    exact hxs'
  · exact hxs'

theorem Threaded.link (h : t.link i forward = .ok t') (hi : t.records[i]? = some c)
    (hfree : t.Linkable i) : t'.Threaded where
  into key := by
    obtain ⟨xs, hxs, hkey⟩ := hfree.into key
    refine ⟨_, link_into h hi hxs (hfree.notInto key xs hxs), fun x hx => ?_⟩
    split at hx
    · next heq =>
      rcases List.mem_cons.1 hx with rfl | hx
      · exact heq
      · exact hkey x hx
    · exact hkey x hx
  site key := by
    obtain ⟨xs, hxs, hkey⟩ := hfree.site key
    refine ⟨_, link_from h hi hxs (hfree.notFrom key xs hxs), fun x hx => ?_⟩
    split at hx
    · next heq =>
      rcases List.mem_cons.1 hx with rfl | hx
      · exact heq.2
      · exact hkey x hx
    · exact hkey x hx

theorem Wf.link (hw : t.Wf) (h : t.link i forward = .ok t') (hi : t.records[i]? = some c)
    (hfree : t.Linkable i) : t'.Wf where
  toThreaded := .link h hi hfree
  known c' := by
    obtain ⟨hrecords, hknown⟩ := link_records h hi
    rw [hrecords, ← hw.known c', mem_iff, mem_iff, hknown]

theorem callsInto_link (h : t.link i forward = .ok t') (hi : t.records[i]? = some c)
    (hfree : t.Linkable i) (e : FactId) (p : ProcId) : t'.callsInto e p =
      if c.entry = e ∧ c.callee = p then c :: t.callsInto e p else t.callsInto e p := by
  obtain ⟨xs, hxs, -⟩ := hfree.into (pack e.val p.val)
  rw [callsInto_eq hxs, callsInto_eq (link_into h hi hxs (hfree.notInto _ xs hxs))]
  simp only [CallRecord.calleeKey_eq]
  split <;> rfl

theorem callsFrom_link (h : t.link i forward = .ok t') (hi : t.records[i]? = some c)
    (hfree : t.Linkable i) (a : FactId) (n : NodeId) : t'.callsFrom a n =
      if forward = true ∧ c.source = a ∧ c.site = n then c :: t.callsFrom a n
      else t.callsFrom a n := by
  obtain ⟨xs, hxs, -⟩ := hfree.site (pack a.val n.val)
  rw [callsFrom_eq hxs, callsFrom_eq (link_from h hi hxs (hfree.notFrom _ xs hxs))]
  simp only [CallRecord.siteKey_eq]
  split <;> rfl

theorem link_spec (h : t.link i forward = .ok t') (hi : t.records[i]? = some c)
    (hfree : t.Linkable i) :
    t'.records = t.records ∧ t'.known = t.known ∧
    (∀ e p c', c' ∈ t'.callsInto e p ↔
      c' = c ∧ c.entry = e ∧ c.callee = p ∨ c' ∈ t.callsInto e p) ∧
    (∀ a n c', c' ∈ t'.callsFrom a n ↔
      forward = true ∧ c' = c ∧ c.source = a ∧ c.site = n ∨ c' ∈ t.callsFrom a n) := by
  obtain ⟨hrecords, hknown⟩ := link_records h hi
  refine ⟨hrecords, hknown, fun e p c' => ?_, fun a n c' => ?_⟩
  · rw [callsInto_link h hi hfree]
    split <;> simp_all
  · rw [callsFrom_link h hi hfree]
    split <;> simp_all

/-! ## Purging -/

theorem byCallee_purgeCallee (t : CallLedger) (p : ProcId) (key : UInt64) :
    (t.purgeCallee p).2.byCallee[key]? =
      if (unpack key).2 = p.val then none else t.byCallee[key]? := by
  simp only [purgeCallee, Std.TreeMap.getElem?_filter']
  cases t.byCallee[key]? with
  | none => simp
  | some i => by_cases h : (unpack key).2 = p.val <;> simp [Option.filter, h]

theorem callsInto_purgeCallee (t : CallLedger) (p q : ProcId) (e : FactId) :
    (t.purgeCallee p).2.callsInto e q = if q = p then [] else t.callsInto e q := by
  have hq : q.val = p.val ↔ q = p := by
    cases p; cases q
    simp
  unfold callsInto
  rw [byCallee_purgeCallee, unpack_pack]
  simp only [hq]
  split
  · exact Chain.follow_eq .nil (Nat.zero_le _)
  · rfl

/-- Where some of the lists of waiting calls begin was forgotten, and nothing else. -/
structure Forgets (t t' : CallLedger) : Prop where
  entries : t'.entries = t.entries
  known : t'.known = t.known
  bySite : t'.bySite = t.bySite
  byCallee : ∀ key : UInt64, t'.byCallee[key]? = none ∨ t'.byCallee[key]? = t.byCallee[key]?

namespace Forgets

theorem refl (t : CallLedger) : t.Forgets t := ⟨rfl, rfl, rfl, fun _ => .inr rfl⟩

theorem trans {t'' : CallLedger} (h : t.Forgets t') (h' : t'.Forgets t'') : t.Forgets t'' where
  entries := h'.entries.trans h.entries
  known := h'.known.trans h.known
  bySite := h'.bySite.trans h.bySite
  byCallee key := (h'.byCallee key).elim .inl fun heq => heq ▸ h.byCallee key

theorem records (h : t.Forgets t') : t'.records = t.records := by
  rw [CallLedger.records, CallLedger.records, h.entries]

theorem mem_iff (h : t.Forgets t') (c : CallRecord) : c ∈ t' ↔ c ∈ t := by
  rw [CallLedger.mem_iff, CallLedger.mem_iff, h.known]

theorem callsFrom (h : t.Forgets t') (a : FactId) (n : NodeId) :
    t'.callsFrom a n = t.callsFrom a n := by
  unfold CallLedger.callsFrom CallLedger.size
  rw [h.entries, h.bySite]

theorem callsInto (h : t.Forgets t') (e : FactId) (p : ProcId) :
    ∀ c ∈ t'.callsInto e p, c ∈ t.callsInto e p := by
  unfold CallLedger.callsInto CallLedger.size
  rw [h.entries]
  intro c hc
  rcases h.byCallee (pack e.val p.val) with hnone | hsame
  · rw [hnone, Chain.follow_eq .nil (Nat.zero_le _)] at hc
    cases hc
  · rw [← hsame]
    exact hc

/-- The lists that are left are as they were. -/
theorem wf (h : t.Forgets t') (hw : t.Wf) : t'.Wf where
  into key := by
    rcases h.byCallee key with hnone | hsame
    · refine ⟨[], ?_, by simp⟩
      rw [IntoChain, hnone]
      exact .nil
    · rw [IntoChain, hsame, h.entries]
      exact hw.into key
  site key := by
    rw [FromChain, h.bySite, h.entries]
    exact hw.site key
  known c := by
    rw [h.mem_iff, h.records]
    exact hw.known c

end Forgets

theorem forgets_purgeCallee (t : CallLedger) (p : ProcId) : t.Forgets (t.purgeCallee p).2 := by
  refine ⟨rfl, rfl, rfl, fun key => ?_⟩
  have hkey := byCallee_purgeCallee t p key
  split at hkey
  · exact .inl hkey
  · exact .inr hkey

theorem forgets_clearByCallee (t : CallLedger) : t.Forgets t.clearByCallee :=
  ⟨rfl, rfl, rfl, fun key => .inl (by simp [clearByCallee])⟩

end CallLedger

end Tabulation
