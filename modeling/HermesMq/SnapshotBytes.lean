import HermesMq.StateLayout

/-!
# The bytes of a snapshot carry the state

`validate` bounds what a state counts. The rest of it, the clocks, the keys,
the payloads and the settings, is in the range of its type because it came
with a request that was (`TopicState.InRange`). So the state any log leads
to fits the layout, and its snapshot gives it back
(`snapshot_bytes_restore`).

A node also reads bytes that it did not write. Whatever it accepts it can
write again (`accepted_bytes_rewrite`), and the bytes of older releases are
never taken for bytes of this one (`legacy_bytes_upgrade`).
-/

namespace HermesMq

open Wire

/-! ## Requests that fit -/

namespace AppRequest

variable {req : AppRequest} {τ : TopicId} {γ : GroupId}

theorem fits_items (h : layout.Fits req) : ∀ item ∈ req.items, ProduceItem.layout.Fits item := by
  cases req with
  | produce topic priority contentType payload producerId seq tsMs =>
      exact List.forall_mem_singleton.mpr h
  | produceMany items => exact h.2
  | _ => exact List.forall_mem_nil _

theorem fits_sweepClock? (h : layout.Fits req) {now : Nat} (hnow : req.sweepClock? τ = some now) :
    Layout.u64.Fits now := by
  cases req with
  | poll | pollAuto =>
      rw [sweepClock?] at hnow
      split_ifs at hnow
      exact Option.some.inj hnow ▸ h.2.2.2.2
  | commitOffsetAt =>
      rw [sweepClock?] at hnow
      split_ifs at hnow
      exact Option.some.inj hnow ▸ h.2.2.2
  | _ => cases hnow

theorem fits_pollOf? (h : layout.Fits req) {ts d : Nat} (hpoll : req.pollOf? τ γ = some (ts, d)) :
    Layout.u64.Fits ts ∧ Layout.u64.Fits d := by
  obtain ⟨max, vis, rfl | rfl, rfl⟩ := pollOf?_eq_some hpoll
  · exact ⟨h.2.2.2.2, fits_u64_of_le (satAdd_le_max ..)⟩
  · exact ⟨h.2.2.2.2, fits_u64_of_le (satAdd_le_max ..)⟩

theorem fits_commitOf? (h : layout.Fits req) {offset : Offset} {now : Nat}
    (hcommit : req.commitOf? τ γ = some (offset, some now)) : Layout.u64.Fits now := by
  cases req with
  | commitOffsetAt =>
      rw [commitOf?] at hcommit
      split_ifs at hcommit
      cases hcommit
      exact h.2.2.2
  | commitOffset =>
      rw [commitOf?] at hcommit
      split_ifs at hcommit
      cases hcommit
  | _ => cases hcommit

end AppRequest

/-! ## What no check of `validate` bounds -/

/-- The clocks of a group are machine integers. -/
structure GroupState.InRange (g : GroupState) : Prop where
  active : Layout.u64.Fits g.lastActiveMs
  deadline : ∀ {id l}, g.inFlight.get? id = some l → Layout.u64.Fits l.deadlineMs

/-- So is what a topic has from the produce requests. -/
structure TopicState.InRange (t : TopicState) : Prop where
  message : ∀ {o m}, t.messages.get? o = some m →
    Layout.bytes.Fits m.payload ∧ Layout.u64.Fits m.tsMs
  dedup : ∀ {key o}, t.dedup.get? key = some o → DedupKey.layout.Fits key ∧ Layout.u64.Fits o
  group : ∀ {γ g}, t.groups.get? γ = some g → g.InRange

namespace GroupState

variable {g g' : GroupState}

theorem InRange.narrow (h : g.InRange) (hn : Narrows g g')
    (hactive : g'.lastActiveMs = g.lastActiveMs) : g'.InRange :=
  ⟨hactive ▸ h.active, fun hl => h.deadline (hn.inFlight hl)⟩

theorem InRange.of_active (h : g.InRange) {now : Nat} (hnow : Layout.u64.Fits now) :
    ({ g with lastActiveMs := now } : GroupState).InRange :=
  ⟨hnow, h.deadline⟩

theorem InRange.takeLease (h : g.InRange) (id : LeaseId) (o : Offset) {d : Nat}
    (hd : Layout.u64.Fits d) : (g.takeLease id o d).InRange where
  active := h.active
  deadline {id' l} hl := by
    change (g.inFlight.insert id ⟨o, d⟩).get? id' = some l at hl
    rw [OrdMap.get?_insert] at hl
    split_ifs at hl
    · exact Option.some.inj hl ▸ hd
    · exact h.deadline hl

theorem InRange.beginPoll (h : g.InRange) {ts : Nat} (hts : Layout.u64.Fits ts) :
    (g.beginPoll ts).InRange where
  active := by
    rw [beginPoll_lastActiveMs]
    exact max_lt h.active hts
  deadline hl := h.deadline ((narrows_dropLeases g _).inFlight hl)

/-- A step leaves the clocks of a group in range. -/
theorem InRange.step {t : TopicState} {γ : GroupId} {op : TopicOp} {req : AppRequest}
    {τ : TopicId} (h : g.InRange) (hstep : GroupStep t γ g op g') (hallow : op.AllowedBy req τ)
    (hreq : AppRequest.layout.Fits req) : g'.InRange := by
  cases hstep with
  | same => exact h
  | purge now =>
      exact h.narrow (narrows_advanceWatermark ..) (advanceWatermark_lastActiveMs ..)
  | sweep now =>
      unfold stamp
      split_ifs
      · exact h.of_active (AppRequest.fits_sweepClock? hreq hallow)
      · exact h
  | beginPoll ts =>
      obtain ⟨d, hpoll⟩ := hallow
      exact h.beginPoll (AppRequest.fits_pollOf? hreq hpoll).1
  | lease id o d =>
      obtain ⟨ts, hpoll⟩ := hallow
      exact h.takeLease id o (AppRequest.fits_pollOf? hreq hpoll).2
  | ack id => exact h.narrow (narrows_ackLease ..) (ackLease_lastActiveMs ..)
  | nack id =>
      exact h.narrow (narrows_removeLease ..) (sameButLeases_removeLease g id).lastActiveMs
  | commit upto now =>
      obtain ⟨offset, hcommit, -⟩ := hallow
      have hadvanced := h.narrow (narrows_advanceWatermark g upto)
        (advanceWatermark_lastActiveMs ..)
      cases now with
      | none => exact hadvanced
      | some now =>
          exact hadvanced.of_active
            (max_lt hadvanced.active (AppRequest.fits_commitOf? hreq hcommit))

end GroupState

theorem pruneDedupLoop_sub {boundary : Offset} {order : List DedupKey}
    {dedup : OrdMap DedupKey Offset} {key : DedupKey} {o : Offset}
    (h : (pruneDedupLoop boundary order dedup).2.get? key = some o) :
    dedup.get? key = some o := by
  induction order generalizing dedup with
  | nil => exact h
  | cons k rest ih =>
      rw [pruneDedupLoop] at h
      split_ifs at h
      · have hrest := ih h
        rw [OrdMap.get?_erase] at hrest
        split_ifs at hrest
        exact hrest
      · exact h

namespace TopicState.InRange

variable {t : TopicState}

theorem empty : TopicState.InRange {} :=
  ⟨fun h => (by cases h), fun h => (by cases h), fun h => (by cases h)⟩

theorem append (h : t.InRange) (hnext : t.nextOffset ≤ u64Max) {item : ProduceItem}
    (hitem : ProduceItem.layout.Fits item) : (appendMessage t item).InRange where
  message {o m} hm := by
    rw [appendMessage_messages, OrdMap.get?_insert] at hm
    split_ifs at hm
    · obtain ⟨-, -, -, hpayload, -, -, hts⟩ := hitem
      exact Option.some.inj hm ▸ ⟨hpayload, hts⟩
    · exact h.message hm
  dedup {key o} hkey := by
    obtain ⟨-, -, -, -, hproducer, hseq, -⟩ := hitem
    unfold appendMessage at hkey
    simp only at hkey
    split_ifs at hkey
    · have hinsert := evictDedup_sub hkey
      rw [OrdMap.get?_insert] at hinsert
      split_ifs at hinsert with hnew
      · exact ⟨hnew ▸ ⟨hproducer, hseq⟩, Option.some.inj hinsert ▸ fits_u64_of_le hnext⟩
      · exact h.dedup hinsert
    · exact h.dedup hkey
  group hg := h.group (appendMessage_groups t item ▸ hg)

theorem run_dedup (h : t.InRange) {op : TopicOp} (happend : ∀ item, op ≠ .append item)
    {key : DedupKey} {o : Offset} (hkey : (op.run t).dedup.get? key = some o) :
    DedupKey.layout.Fits key ∧ Layout.u64.Fits o := by
  by_cases hpurge : ∃ now, op = .purge now
  · obtain ⟨now, rfl⟩ := hpurge
    change (purgeRetained t now).dedup.get? key = some o at hkey
    unfold purgeRetained at hkey
    simp only at hkey
    split_ifs at hkey
    · exact h.dedup hkey
    · exact h.dedup (pruneDedupLoop_sub hkey)
  · have heq := (TopicOp.run_dedup_eq happend (fun now hop => hpurge ⟨now, hop⟩) t).2
    exact h.dedup (heq ▸ hkey)

theorem run (h : t.InRange) (hshape : TopicShape t) {n : LeaseId} {op : TopicOp}
    (hpre : op.Pre t n) {req : AppRequest} {τ : TopicId} (hallow : op.AllowedBy req τ)
    (hreq : AppRequest.layout.Fits req) : (op.run t).InRange := by
  by_cases happend : ∃ item, op = .append item
  · obtain ⟨item, rfl⟩ := happend
    exact h.append hshape.nextOffset_le (AppRequest.fits_items hreq item hallow.1)
  · have happend : ∀ item, op ≠ .append item := fun item hop => happend ⟨item, hop⟩
    refine ⟨fun hm => h.message ((TopicOp.run_sub happend t).2 hm), h.run_dedup happend, ?_⟩
    intro γ g' hg'
    rcases TopicOp.group_of_run hpre hg' with ⟨g, hg, rfl⟩ | ⟨-, now, rfl, rfl⟩
    · exact (h.group hg).step (op.groupStep t γ g) hallow hreq
    · -- a group that the request opens starts at the request's clock
      have hclock : Layout.u64.Fits (now.getD 0) := by
        rcases hallow with ⟨d, ts, hpoll, rfl⟩ | ⟨offset, hcommit⟩
        · exact (AppRequest.fits_pollOf? hreq hpoll).1
        · cases now with
          | none => exact fits_u64_of_le (Nat.zero_le _)
          | some now => exact AppRequest.fits_commitOf? hreq hcommit
      exact ⟨hclock, fun hl => (by cases hl)⟩

end TopicState.InRange

theorem run_inRange {reqs : List AppRequest} (hreqs : ∀ req ∈ reqs, AppRequest.layout.Fits req) :
    (({} : Queue).run reqs).Topics fun t => TopicShape t ∧ t.InRange := by
  induction reqs using List.reverseRecOn with
  | nil => exact Queue.topicsAt_empty _
  | append_singleton reqs req ih =>
      rw [List.forall_mem_append, List.forall_mem_singleton] at hreqs
      rw [Queue.run_snoc]
      refine (apply_steps _ req).topicsAt_of_allowed
        (fun _ => ⟨TopicShape.empty, TopicState.InRange.empty⟩) (fun _ _ _ h => h) ?_ (ih hreqs.1)
      intro τ t n op h hpre hallow
      exact ⟨h.1.run hpre, h.2.run h.1 hpre hallow hreqs.2⟩

/-! ## Settings -/

def TopicSettings.InRange (s : TopicSettings) : Prop :=
  Layout.u64.Fits s.rateMilliPerSec ∧ Layout.u32.Fits s.burst ∧
    Layout.u64.Fits s.retainMaxMessages ∧ Layout.u64.Fits s.retainMaxAgeMs

theorem TopicSettings.inRange_default : TopicSettings.InRange {} :=
  have hzero := fits_u64_of_le (Nat.zero_le _)
  ⟨hzero, Layout.fits_u32.mpr (by decide), hzero, hzero⟩

theorem TopicSettings.InRange.after {s : TopicSettings} (h : s.InRange) {req : AppRequest}
    (hreq : AppRequest.layout.Fits req) (τ : TopicId) : (s.after τ req).InRange := by
  cases req with
  | setRateLimit topic rate burst =>
      rw [TopicSettings.after]
      split_ifs
      · exact ⟨hreq.2.1, hreq.2.2, h.2.2⟩
      · exact h
  | setRetention topic maxMessages maxAgeMs =>
      rw [TopicSettings.after]
      split_ifs
      · exact ⟨h.1, h.2.1, hreq.2.1, hreq.2.2⟩
      · exact h
  | deleteTopic topic =>
      rw [TopicSettings.after]
      split_ifs
      · exact TopicSettings.inRange_default
      · exact h
  | _ => exact h

theorem run_settings_inRange {reqs : List AppRequest}
    (hreqs : ∀ req ∈ reqs, AppRequest.layout.Fits req) (τ : TopicId) :
    ((({} : Queue).run reqs).settings τ).InRange := by
  induction reqs using List.reverseRecOn with
  | nil => exact TopicSettings.inRange_default
  | append_singleton reqs req ih =>
      rw [List.forall_mem_append, List.forall_mem_singleton] at hreqs
      rw [Queue.run_snoc]
      by_cases h : ((({} : Queue).run reqs).apply req).2.Rejected
      · rw [apply_rejected h]
        exact ih hreqs.1
      · rw [Queue.apply_settings h]
        exact (ih hreqs.1).after hreqs.2 τ

/-! ## A state that a log leads to fits -/

theorem fits_counter {n : Nat} (h : n ≤ maxCounter) : Layout.u64.Fits n :=
  fits_u64_of_le (h.trans (by decide))

theorem GroupValid.fits {n : LeaseId} {next : Offset} {g : GroupState} (h : GroupValid n next g)
    (hn : n ≤ maxCounter) (hnext : next ≤ maxCounter) (hpolls : g.pollCount ≤ maxCounter)
    (hg : g.InRange) : GroupState.layout.Fits g := by
  have hoffset : ∀ {o}, o < next → Layout.u64.Fits o := fun ho => fits_counter (ho.le.trans hnext)
  have hacked : Layout.u64.finset.Fits g.ackedAbove := by
    refine Layout.fits_finset.mpr ⟨?_, fun o ho => hoffset (h.acked_lt o ho)⟩
    have hsub : g.ackedAbove ⊆ Finset.range next := fun o ho =>
      Finset.mem_range.mpr (h.acked_lt o ho)
    have hcard := Finset.card_le_card hsub
    rw [Finset.card_range] at hcard
    exact fits_counter (hcard.trans hnext)
  have hleases : (Layout.u64.ordMap Lease.layout).Fits g.inFlight := by
    refine Layout.fits_ordMap.mpr ⟨?_, fun id l hl => ?_⟩
    · have hsize := OrdMap.size_le_length fun id l (hl : g.inFlight.get? id = some l) =>
        List.mem_range.mpr (h.lease_lt hl).1
      rw [List.length_range] at hsize
      exact fits_counter (hsize.trans hn)
    · obtain ⟨hid, ho⟩ := h.lease_lt hl
      exact ⟨fits_counter (hid.le.trans hn), hoffset ho, hg.deadline hl⟩
  have hleased : (Layout.u64.ordMap Layout.u64).Fits g.leasedOffsets := by
    have hlt : ∀ o d, g.leasedOffsets.get? o = some d → o < next ∧ Layout.u64.Fits d := by
      intro o d hd
      obtain ⟨id, hid⟩ := h.backed o d hd
      exact ⟨(h.lease_lt hid).2, hg.deadline hid⟩
    refine Layout.fits_ordMap.mpr ⟨?_, fun o d hd => ⟨hoffset (hlt o d hd).1, (hlt o d hd).2⟩⟩
    have hsize := OrdMap.size_le_length fun o d hd => List.mem_range.mpr (hlt o d hd).1
    rw [List.length_range] at hsize
    exact fits_counter (hsize.trans hnext)
  exact ⟨fits_counter (h.watermark_le.trans hnext), hacked, hleases, hleased, fits_counter hpolls,
    hg.active⟩

theorem TopicValid.fits {n : LeaseId} {t : TopicState} (h : TopicValid n t) (hn : n ≤ maxCounter)
    (hnext : t.nextOffset ≤ maxCounter)
    (hpolls : ∀ {γ g}, t.groups.get? γ = some g → g.pollCount ≤ maxCounter)
    (ht : t.InRange) (hsettings : t.settings.InRange)
    (hgroups : t.groups.size ≤ maxGroupsPerTopic)
    (hnames : ∀ γ g, t.groups.get? γ = some g → γ.utf8ByteSize ≤ maxNameBytes) :
    TopicState.layout.Fits t := by
  have hmessages : (Layout.u64.ordMap Message.layout).Fits t.messages := by
    refine Layout.fits_ordMap.mpr ⟨?_, fun o m hm => ?_⟩
    · have hsize := OrdMap.size_le_length fun o m (hm : t.messages.get? o = some m) =>
        List.mem_range.mpr (h.keys_lt hm)
      rw [List.length_range] at hsize
      exact fits_counter (hsize.trans hnext)
    · have ho : Layout.u64.Fits o := fits_counter ((h.keys_lt hm).le.trans hnext)
      have hoffset : Layout.u64.Fits m.offset := h.message_offset hm ▸ ho
      obtain ⟨hpayload, hts⟩ := ht.message hm
      exact ⟨ho, hoffset, trivial, m.contentType.layout_fits, hpayload, hts⟩
  have hcapacity : Layout.u64.Fits t.dedupOrder.length :=
    fits_u64_of_le (h.order_le.trans (by decide))
  have hdedup : (DedupKey.layout.ordMap Layout.u64).Fits t.dedup := by
    refine Layout.fits_ordMap.mpr ⟨?_, fun key o hkey => ht.dedup hkey⟩
    have hsize := OrdMap.size_le_length fun key o hkey =>
      (h.order_iff key).mpr (OrdMap.contains_iff.mpr ⟨o, hkey⟩)
    exact hsize.trans_lt hcapacity
  have horder : DedupKey.layout.seq.Fits t.dedupOrder := by
    refine ⟨hcapacity, fun key hkey => ?_⟩
    obtain ⟨o, ho⟩ := OrdMap.contains_iff.mp ((h.order_iff key).mp hkey)
    exact (ht.dedup ho).1
  have hgroups : (Layout.text.ordMap GroupState.layout).Fits t.groups := by
    refine Layout.fits_ordMap.mpr ⟨hgroups.trans_lt (by decide), fun γ g hg => ?_⟩
    exact ⟨fits_text_of_le (hnames γ g hg) (by decide),
      (h.groups hg).fits hn hnext (hpolls hg) (ht.group hg)⟩
  exact ⟨fits_counter hnext, hmessages, hdedup, horder, hgroups, hsettings⟩

theorem run_fits {reqs : List AppRequest} (hreqs : ∀ req ∈ reqs, AppRequest.layout.Fits req)
    (hb : (({} : Queue).run reqs).Bounded) : Queue.layout.Fits (({} : Queue).run reqs) := by
  have hvalid : (({} : Queue).run reqs).TopicsAt TopicValid :=
    (validate_ok_iff.mp (validate_of_healthy (run_healthy (Queue.topicsAt_empty _) reqs) hb)).2
  refine ⟨Layout.fits_ordMap.mpr ⟨?_, fun τ t ht => ⟨?_, ?_⟩⟩, fits_counter hb.lease⟩
  · exact (Queue.run_size_le (Nat.zero_le _) reqs).trans_lt (by decide)
  · exact fits_text_of_le ((run_namesOk reqs).1 τ (OrdMap.contains_iff.mpr ⟨t, ht⟩)) (by decide)
  · obtain ⟨hshape, hrange⟩ := run_inRange hreqs τ t ht
    have hsettings := run_settings_inRange hreqs τ
    rw [Queue.settings, Queue.topicOrDefault, ht] at hsettings
    exact (hvalid τ t ht).fits hb.lease (hb.offset ht) (hb.polls ht) hrange hsettings
      hshape.size_le ((run_namesOk reqs).2 τ t ht)

/-- The last id and the last membership are those of entries. -/
theorem apply_ids_fit {d : StateMachineData} (hid : LogId.layout.option.Fits d.lastApplied)
    (hmembership : StoredMembership.layout.Fits d.lastMembership) {entries : List Entry}
    (hentries : ∀ e ∈ entries, Entry.layout.Fits e) :
    LogId.layout.option.Fits (d.apply entries).1.lastApplied ∧
      StoredMembership.layout.Fits (d.apply entries).1.lastMembership := by
  induction entries generalizing d with
  | nil => exact ⟨hid, hmembership⟩
  | cons e entries ih =>
      obtain ⟨he, hrest⟩ := List.forall_mem_cons.mp hentries
      obtain ⟨id, payload⟩ := e
      have hlast : LogId.layout.option.Fits (some id) := fun x hx => Option.some.inj hx ▸ he.1
      cases payload with
      | blank => exact ih hlast hmembership hrest
      | normal req => exact ih hlast hmembership hrest
      | membership m => exact ih hlast ⟨hlast, he.2⟩ hrest

theorem apply_fits {entries : List Entry} (hentries : ∀ e ∈ entries, Entry.layout.Fits e)
    (hb : (StateMachineData.apply {} entries).1.queue.Bounded) :
    StateMachineData.layout.Fits (StateMachineData.apply {} entries).1 := by
  have hnone : LogId.layout.option.Fits none := fun _ h => (by cases h)
  have hzero := fits_u64_of_le (Nat.zero_le _)
  have hfresh : StoredMembership.layout.Fits {} :=
    ⟨hnone, ⟨hzero, List.forall_mem_nil _⟩, hzero, List.forall_mem_nil _⟩
  have hreqs : ∀ req ∈ entries.filterMap (·.payload.request?), AppRequest.layout.Fits req := by
    intro req hreq
    obtain ⟨⟨id, payload⟩, he, hpayload⟩ := List.mem_filterMap.mp hreq
    cases payload with
    | normal req' => exact Option.some.inj hpayload ▸ (hentries _ he).2
    | blank | membership => cases hpayload
  obtain ⟨hid, hmembership⟩ := apply_ids_fit (d := {}) hnone hfresh hentries
  have hqueue : Queue.layout.Fits (StateMachineData.apply {} entries).1.queue := by
    rw [StateMachineData.apply_queue] at hb ⊢
    exact run_fits hreqs hb
  exact ⟨hid, hmembership, hqueue⟩

/-! ## The snapshots of a node -/

variable {postcardError : Bytes → String}

/-- The snapshot of the state that any log leads to: its bytes are read as
that state, with anything or nothing behind them, and no part of them is
read as a state at all. -/
theorem snapshot_bytes_restore {entries : List Entry}
    (hentries : ∀ e ∈ entries, Entry.layout.Fits e)
    (hb : (StateMachineData.apply {} entries).1.queue.Bounded) :
    let data := (StateMachineData.apply {} entries).1
    (∀ behind, decodeStateBytes postcardError (encodeStateBytes data ++ behind) = .ok data) ∧
      ∀ p, p <+: encodeStateBytes data → p ≠ encodeStateBytes data →
        ∃ unread, decodeStateBytes postcardError p = .error (postcardError unread) := by
  intro data
  have hfits : StateMachineData.layout.Fits data := apply_fits hentries hb
  exact ⟨decodeStateBytes_encode hfits (StateMachineData.apply_valid hb),
    fun p hp hne => decodeStateBytes_torn hfits hp hne⟩

theorem firstEntries_fit : ∀ e ∈ firstEntries, Entry.layout.Fits e := by
  have hid : ∀ {index : Nat}, index ≤ u64Max → LogId.layout.Fits ⟨⟨1, 1⟩, index⟩ := fun h =>
    ⟨fits_u64_of_le (n := 1) (by decide), fits_u64_of_le (n := 1) (by decide), fits_u64_of_le h⟩
  have hnum : ∀ {n : Nat}, n ≤ 100 → n < 2 ^ 64 := fun h => h.trans_lt (by decide)
  simp only [firstEntries, List.forall_mem_cons]
  refine ⟨⟨hid (by decide), trivial⟩, ⟨hid (by decide), ?_⟩, ⟨hid (by decide), ?_⟩,
    ⟨hid (by decide), ?_⟩, List.forall_mem_nil _⟩
  · refine (⟨⟨hnum (by decide), ?_⟩, Layout.fits_ordMap.mpr ⟨hnum (by decide), ?_⟩⟩ :
      Membership.layout.Fits ⟨[{1}], .ofList [(1, "a:1")]⟩)
    · refine List.forall_mem_singleton.mpr (Layout.fits_finset.mpr ⟨hnum (by decide), ?_⟩)
      intro x hx
      rw [Finset.mem_singleton.mp hx]
      exact hnum (by decide)
    · intro x y hxy
      obtain ⟨rfl, rfl⟩ := Prod.mk.inj (List.mem_singleton.mp (OrdMap.get?_eq_some.mp hxy))
      exact ⟨hnum (by decide), hnum (by decide)⟩
  · exact (⟨hnum (by decide), trivial, ContentType.layout_fits _, hnum (by decide),
      hnum (by decide), hnum (by decide), hnum (by decide)⟩ :
      ProduceItem.layout.Fits ⟨"t", .default, .raw, [1], "", 0, 5⟩)
  · exact (⟨hnum (by decide), hnum (by decide), Layout.fits_u32.mpr (by decide),
      hnum (by decide), hnum (by decide)⟩ : AppRequest.pollFields.Fits ("t", "g", 1, 100, 5))

theorem snapshot_bytes_restore_lease :
    let data := (StateMachineData.apply {} firstEntries).1
    decodeStateBytes (fun _ => "postcard") (encodeStateBytes data) = .ok data ∧
      ∃ reason, decodeStateBytes (fun _ => "postcard") (encodeStateBytes data).dropLast =
        .error reason := by
  intro data
  have hv : data.queue.validate = .ok () := by decide
  obtain ⟨hall, hpart⟩ := @snapshot_bytes_restore (fun _ => "postcard") _
    firstEntries_fit (validate_ok_iff.mp hv).1
  refine ⟨?_, _, (hpart _ (List.dropLast_prefix _) fun heq => ?_).choose_spec⟩
  · have hexact := hall []
    rwa [List.append_nil] at hexact
  · have hlen := congrArg List.length heq
    rw [List.length_dropLast] at hlen
    have hpos : 0 < (encodeStateBytes (StateMachineData.apply {} firstEntries).1).length :=
      Nat.succ_pos _
    omega

/-- Any bytes at all, from a disk or from a peer. If they are accepted, the
state they give passes `validate`, and the node can write a snapshot of it
in the current layout that gives the same state again. -/
theorem accepted_bytes_rewrite {bytes : Bytes} {data : StateMachineData}
    (h : decodeStateBytes postcardError bytes = .ok data) :
    data.queue.validate = .ok () ∧
      (∀ behind, decodeStateBytes postcardError (encodeStateBytes data ++ behind) = .ok data) ∧
      ∀ p, p <+: encodeStateBytes data → p ≠ encodeStateBytes data →
        ∃ unread, decodeStateBytes postcardError p = .error (postcardError unread) := by
  have hfits := fits_of_decodeStateBytes h
  have hv := decodeState_valid stateCodec _ (decodeState_of_decodeStateBytes h)
  exact ⟨hv, decodeStateBytes_encode hfits hv, fun p hp hne => decodeStateBytes_torn hfits hp hne⟩

/-- A state of an older release, with a watermark past the end. -/
def staleWatermark : StateMachineDataV0 :=
  ⟨none, {}, ⟨.ofList [("t", ⟨1, .ofList [(0, ⟨0, .default, .raw, [7], 5⟩)], ∅, [],
    .ofList [("g", ⟨3, ∅, ∅, ∅, 2⟩)], 0, 0, 0, 0⟩)], 0⟩⟩

theorem staleWatermark_fits : StateMachineDataV0.layout.Fits staleWatermark := by
  have hnum : ∀ {n : Nat}, n ≤ 100 → n < 2 ^ 64 := fun h => h.trans_lt (by decide)
  have hzero := fits_u64_of_le (Nat.zero_le _)
  have hgroup : GroupStateV0.layout.Fits ⟨3, ∅, ∅, ∅, 2⟩ :=
    ⟨hnum (n := 3) (by decide), Layout.fits_finset.mpr ⟨hzero, fun _ h => (by cases h)⟩,
      ⟨hzero, List.forall_mem_nil _⟩, ⟨hzero, List.forall_mem_nil _⟩, hnum (n := 2) (by decide)⟩
  have hmessage : Message.layout.Fits ⟨0, .default, .raw, [7], 5⟩ :=
    ⟨hzero, trivial, ContentType.layout_fits _, hnum (n := 1) (by decide),
      hnum (n := 5) (by decide)⟩
  have htext : ∀ {s : String}, s.utf8ByteSize = 1 → Layout.text.Fits s := fun h =>
    fits_text.mpr (hnum (h ▸ by decide))
  refine ⟨fun _ h => (by cases h), ⟨fun _ h => (by cases h), ⟨hzero, List.forall_mem_nil _⟩,
    hzero, List.forall_mem_nil _⟩, ⟨hnum (n := 1) (by decide), List.forall_mem_singleton.mpr
    ⟨htext rfl, hnum (n := 1) (by decide), ?_, ⟨hzero, List.forall_mem_nil _⟩,
      ⟨hzero, List.forall_mem_nil _⟩, ?_, hzero, Layout.fits_u32.mpr (by decide), hzero, hzero⟩⟩,
    hzero⟩
  · exact ⟨hnum (n := 1) (by decide), List.forall_mem_singleton.mpr ⟨hzero, hmessage⟩⟩
  · exact ⟨hnum (n := 1) (by decide), List.forall_mem_singleton.mpr ⟨htext rfl, hgroup⟩⟩

/-- The bytes of an older release, with one byte behind them, of a state with
a topic, a message and a group. -/
theorem accepted_bytes_rewrite_padded :
    ∃ data t, decodeStateBytes (fun _ => "postcard")
        (StateMachineDataV0.layout.write staleWatermark ++ [7]) = .ok data ∧
      data.queue.topics.get? "t" = some t ∧ t.messages.size = 1 ∧ t.groups.size = 1 ∧
      decodeStateBytes (fun _ => "postcard") (encodeStateBytes data) = .ok data := by
  let data : StateMachineData := ⟨none, {}, staleWatermark.queue.upgrade.normalize⟩
  have hv : data.queue.validate = .ok () := by decide
  have h : decodeStateBytes (fun _ => "postcard")
      (StateMachineDataV0.layout.write staleWatermark ++ [7]) = .ok data := by
    rw [decodeStateBytes_ok_iff, parseStateBytes_legacy staleWatermark_fits]
    exact ⟨_, rfl, rfl, hv⟩
  obtain ⟨-, hall, -⟩ := accepted_bytes_rewrite h
  have hexact := hall []
  rw [List.append_nil] at hexact
  exact ⟨data, _, h, rfl, rfl, rfl, hexact⟩

/-- What an upgrade keeps of a topic. -/
structure TopicStateV0.Upgrades (old : TopicStateV0) (t : TopicState) : Prop where
  nextOffset : t.nextOffset = old.nextOffset
  messages : t.messages = old.messages
  dedup : t.dedup = old.dedup ∧ t.dedupOrder = old.dedupOrder
  settings : t.settings =
    ⟨old.rateMilliPerSec, old.burst, old.retainMaxMessages, old.retainMaxAgeMs⟩
  groups : ∀ γ, t.groups.get? γ = (old.groups.get? γ).map fun g =>
    { g.upgrade with ackWatermark := min g.ackWatermark old.nextOffset }

theorem GroupStateV0.lowered_upgrade (g : GroupStateV0) (next : Offset) :
    (if g.upgrade.ackWatermark > next then { g.upgrade with ackWatermark := next }
      else g.upgrade) = { g.upgrade with ackWatermark := min g.ackWatermark next } := by
  split_ifs with h
  · rw [min_eq_right (show next ≤ g.ackWatermark from h.le)]
  · rw [min_eq_left (show g.ackWatermark ≤ next from not_lt.mp h)]
    rfl

theorem upgrade_normalize_topics (q : QueueV0) (τ : TopicId) :
    (q.topics.get? τ = none ∧ q.upgrade.normalize.topics.get? τ = none) ∨
      ∃ old t, q.topics.get? τ = some old ∧ q.upgrade.normalize.topics.get? τ = some t ∧
        old.Upgrades t := by
  simp only [Queue.normalize, QueueV0.upgrade, OrdMap.get?_mapVals]
  cases q.topics.get? τ with
  | none => exact Or.inl ⟨rfl, rfl⟩
  | some old =>
      refine Or.inr ⟨old, _, rfl, rfl, rfl, rfl, ⟨rfl, rfl⟩, rfl, fun γ => ?_⟩
      simp only [TopicStateV0.upgrade, OrdMap.get?_mapVals, Option.map_map]
      exact congrArg (Option.map · _) (funext fun g => g.lowered_upgrade old.nextOffset)

/-- The bytes of a snapshot of an older release are read as such: its state,
with the stamps the release did not have and with the watermarks lowered to
the end of the topic, provided that passes `validate`. No part of them is
read as a state of either layout. -/
theorem legacy_bytes_upgrade {d : StateMachineDataV0} (h : StateMachineDataV0.layout.Fits d) :
    (∀ behind data, decodeStateBytes postcardError
        (StateMachineDataV0.layout.write d ++ behind) = .ok data ↔
      data.lastApplied = d.lastApplied ∧ data.lastMembership = d.lastMembership ∧
        data.queue = d.queue.upgrade.normalize ∧ data.queue.validate = .ok ()) ∧
    (∀ τ, (d.queue.topics.get? τ = none ∧ d.queue.upgrade.normalize.topics.get? τ = none) ∨
      ∃ old t, d.queue.topics.get? τ = some old ∧
        d.queue.upgrade.normalize.topics.get? τ = some t ∧ old.Upgrades t) ∧
    ∀ p, p <+: StateMachineDataV0.layout.write d → p ≠ StateMachineDataV0.layout.write d →
      ∃ unread, decodeStateBytes postcardError p = .error (postcardError unread) := by
  refine ⟨fun behind data => ?_, upgrade_normalize_topics d.queue,
    fun p hp hne => ⟨p, decodeStateBytes_legacy_torn h hp hne⟩⟩
  rw [decodeStateBytes_ok_iff, parseStateBytes_legacy h]
  simp only [Except.ok.injEq, exists_eq_left']
  constructor
  · rintro ⟨rfl, hv⟩
    exact ⟨rfl, rfl, rfl, hv⟩
  · rintro ⟨hid, hmembership, hqueue, hv⟩
    refine ⟨?_, hv⟩
    cases data
    cases hid
    cases hmembership
    cases hqueue
    rfl

theorem legacy_bytes_upgrade_stale :
    ∃ data t g, decodeStateBytes (fun _ => "postcard")
        (StateMachineDataV0.layout.write staleWatermark) = .ok data ∧
      data.queue.topics.get? "t" = some t ∧ t.groups.get? "g" = some g ∧
      g = { ackWatermark := 1, pollCount := 2 } := by
  let data : StateMachineData := ⟨none, {}, staleWatermark.queue.upgrade.normalize⟩
  have hv : data.queue.validate = .ok () := by decide
  obtain ⟨hread, -, -⟩ :=
    @legacy_bytes_upgrade (fun _ => "postcard") _ staleWatermark_fits
  have hdata := (hread [] data).mpr ⟨rfl, rfl, rfl, hv⟩
  rw [List.append_nil] at hdata
  exact ⟨data, _, _, hdata, rfl, rfl, rfl⟩

end HermesMq
