import HermesMq.Broker
import HermesMq.DedupWindow
import HermesMq.Retention

/-!
# The queue's topics as topics of the broker

`TopicModels` says how a topic of the queue is read as one of the broker: a
group is the set that its watermark and its acked offsets denote, with its
leases by id; the messages are the end of the log; the dedup table is what
the log recalls. Producing to the topic is then producing to the broker's,
with retention.
-/

namespace HermesMq

/-! ## Groups -/

namespace GroupState

variable {g g' : GroupState} {b : Offset} {n : LeaseId}

/-- The group as a consumer. -/
def view (g : GroupState) : Consumer := ⟨g.doneSet, g.inFlight.get?, g.lastActiveMs⟩

theorem Finishes.view_eq {s : Set Offset} (hf : Finishes b s g g') (h : g.Canonical b)
    (hactive : g'.lastActiveMs = g.lastActiveMs) : g'.view = g.view.finish s := by
  refine Consumer.ext hf.done (funext fun id => Option.ext fun l => ?_) hactive
  have hoffset : g.inFlight.get? id = some l →
      (l.offset ∉ g'.doneSet \ g.doneSet ↔ l.offset ∉ s) := by
    intro hl
    have hnot := h.not_done (h.agree.leased hl)
    rw [hf.done, Set.mem_sdiff, Set.mem_union, not_iff_not]
    exact ⟨fun ho => ho.1.resolve_left hnot, fun ho => ⟨.inr ho, hnot⟩⟩
  rw [Consumer.finish_leases_eq_some]
  exact (hf.inFlight id l).trans (and_congr_right hoffset)

theorem view_advanceWatermark (hb : b ≤ u64Max) (h : g.Canonical b) {upto : Offset}
    (hupto : upto ≤ b) : (g.advanceWatermark upto).view = g.view.finish (Set.Iio upto) :=
  (h.advanceWatermark_finishes hb hupto).view_eq h (advanceWatermark_lastActiveMs g upto)

theorem view_removeLease (g : GroupState) (id : LeaseId) :
    (g.removeLease id).view = g.view.nack id := by
  have hs := sameButLeases_removeLease g id
  refine Consumer.ext ?_ (funext fun id' => removeLease_inFlight g id id') hs.lastActiveMs
  show Watermark.denote _ _ = Watermark.denote _ _
  rw [hs.ackWatermark, hs.ackedAbove]

theorem view_ackLease (hb : b ≤ u64Max) (h : GroupSound n b g) (id : LeaseId) :
    (g.ackLease id).view = g.view.ack id := by
  cases hl : g.inFlight.get? id with
  | none =>
      have hack : g.view.ack id = g.view := by
        show (g.inFlight.get? id).elim _ _ = _
        rw [hl]
        rfl
      rw [hack, ackLease, hl]
  | some l =>
      have hack : g.view.ack id = g.view.finish {l.offset} := by
        show (g.inFlight.get? id).elim _ _ = _
        rw [hl]
        rfl
      have hfree : (g.removeLease id).leasedOffsets.get? l.offset = none := by
        rw [removeLease_leasedOffsets, if_pos (by simp [hl])]
      have hremoved := (h.removeLease id).canonical
      have hmark := hremoved.markAcked_finishes hb (h.lease_lt hl).2 hfree
      rw [hack, ackLease, hl]
      show ((g.removeLease id).markAcked l.offset).view = _
      rw [hmark.view_eq hremoved (markAcked_lastActiveMs ..), view_removeLease]
      refine Consumer.ext rfl (funext fun id' => Option.ext fun l' => ?_) rfl
      rw [Consumer.finish_leases_eq_some, Consumer.finish_leases_eq_some]
      refine and_congr_left fun hoffset => ?_
      show (if id' = id then none else g.inFlight.get? id') = some l' ↔
        g.inFlight.get? id' = some l'
      split_ifs with hid
      · -- the lease itself is on the offset that is done now
        rw [hid]
        constructor
        · intro hnone
          cases hnone
        · intro hsame
          exact absurd (congrArg Lease.offset (Option.some.inj (hsame.symm.trans hl))) hoffset
      · rfl

theorem view_touch (g : GroupState) (now : Option Nat) : (g.touch now).view = g.view.touch now := by
  cases now <;> rfl

theorem view_stamp (g : GroupState) (now : Nat) : (g.stamp now).view = g.view.stamp now := by
  rw [stamp]
  split_ifs with hactive
  · exact Consumer.ext rfl rfl (if_pos hactive).symm
  · exact Consumer.ext rfl rfl (if_neg hactive).symm

theorem view_beginPoll (g : GroupState) (ts : Nat) :
    (g.beginPoll ts).view = (g.view.expire ts).touch (some ts) := by
  refine Consumer.ext ?_ (funext fun id => ?_) (beginPoll_lastActiveMs g ts)
  · show Watermark.denote _ _ = Watermark.denote _ _
    rw [beginPoll_ackWatermark, beginPoll_ackedAbove]
  · show (g.expire ts).inFlight.get? id = (g.inFlight.get? id).filter _
    rw [expire, dropLeases_inFlight]
    congr 1
    funext l
    exact (decide_not ..).symm.trans (decide_eq_decide.mpr not_le)

theorem view_takeLease (g : GroupState) (o : Offset) (m : Message) (d : Nat) :
    (g.takeLease n o d).view = g.view.take d [deliveredItem n o m] := by
  refine Consumer.ext rfl (funext fun id => ?_) rfl
  show (g.inFlight.insert n ⟨o, d⟩).get? id =
    (([deliveredItem n o m].find? (·.leaseId = id)).map _).or (g.inFlight.get? id)
  rw [OrdMap.get?_insert]
  by_cases hid : id = n
  · rw [if_pos hid, List.find?_cons_of_pos]
    · rfl
    · exact decide_eq_true hid.symm
  · rw [if_neg hid, List.find?_cons_of_neg]
    · rfl
    · exact fun heq => hid (of_decide_eq_true heq).symm

theorem not_idle_view {now : Nat} : ¬g.view.Idle now ↔ keptBySweep now g = true := by
  have hany : g.inFlight.values.any (fun l => l.deadlineMs > now) = true ↔
      ¬∀ id l, g.inFlight.get? id = some l → l.deadlineMs ≤ now := by
    rw [List.any_eq_true]
    push Not
    constructor
    · rintro ⟨l, hl, hlive⟩
      obtain ⟨id, hid⟩ := OrdMap.mem_values.mp hl
      exact ⟨id, l, hid, of_decide_eq_true hlive⟩
    · rintro ⟨id, l, hid, hlive⟩
      exact ⟨l, OrdMap.mem_values.mpr ⟨id, hid⟩, decide_eq_true hlive⟩
  rw [keptBySweep, Bool.or_eq_true, decide_eq_true_eq, hany, Consumer.Idle, not_and_or, not_lt]
  rfl

end GroupState

/-! ## The log and the dedup table -/

/-- The log of a topic, and how far retention has come, against the topic's
tables. -/
structure Recorded (log : List ProduceItem) (retired : Offset) (t : TopicState) : Prop where
  events : ∃ events, LogMatches events t ∧ DedupLogged events t ∧
    log = (appends events).map Prod.fst ∧ ∀ o, PurgedPast events o ↔ o < retired
  unretired : ∀ key o, t.dedup.get? key = some o → retired ≤ o

theorem LogMatches.length_le {events : List TopicEvent} {t : TopicState} (h : LogMatches events t)
    (hnext : t.nextOffset < u64Max) : (appends events).length ≤ u64Max + 1 := by
  rw [← h.next_eq hnext]
  exact (hnext.trans (Nat.lt_succ_self _)).le

/-- The places of the log are the offsets. -/
theorem LogMatches.getElem?_map {events : List TopicEvent} {t : TopicState}
    (h : LogMatches events t) (hnext : t.nextOffset < u64Max) {o : Offset} {item : ProduceItem} :
    ((appends events).map Prod.fst)[o]? = some item ↔ (appends events)[o]? = some (item, o) := by
  rw [List.getElem?_map, Option.map_eq_some_iff]
  constructor
  · rintro ⟨⟨item, o'⟩, hget, rfl⟩
    rw [hget, h.offset_eq (h.length_le hnext) hget]
  · exact fun hget => ⟨_, hget, rfl⟩

theorem LogMatches.keyed_nodup {events : List TopicEvent} {t : TopicState}
    (h : LogMatches events t) (hnext : t.nextOffset < u64Max) : (keyedAppends events).Nodup := by
  refine ((h.increasing (h.length_le hnext)).sublist List.filter_sublist).imp ?_
  rintro x y hlt rfl
  exact lt_irrefl _ hlt

/-- The messages with a producer, cut at one of them. -/
theorem keyedAppends_split {events : List TopicEvent} {o : Offset} {x : ProduceItem × Offset}
    (hget : (appends events)[o]? = some x) (hid : x.1.producerId ≠ "") :
    keyedAppends events = ((appends events).take o).filter (·.1.producerId ≠ "") ++
      x :: ((appends events).drop (o + 1)).filter (·.1.producerId ≠ "") := by
  obtain ⟨hlt, rfl⟩ := List.getElem?_eq_some_iff.mp hget
  conv_lhs => rw [keyedAppends, ← List.take_append_drop o (appends events), List.filter_append,
    List.drop_eq_getElem_cons hlt, List.filter_cons_of_pos (by simpa using hid)]

theorem length_keyed_drop (events : List TopicEvent) (k : Nat) :
    ((((appends events).map Prod.fst).drop k).filter (·.producerId ≠ "")).length =
      (((appends events).drop k).filter (·.1.producerId ≠ "")).length := by
  rw [← List.map_drop, List.filter_map, List.length_map]
  rfl

section Recalls

variable {events : List TopicEvent} {retired : Offset} {t : TopicState} {item : ProduceItem}
  {o o' : Offset}

/-- A key of the table belongs to a message with a producer, with less than
the window's messages behind it. -/
theorem DedupLogged.found (h : DedupLogged events t) (hm : LogMatches events t)
    (hnext : t.nextOffset < u64Max) {key : DedupKey} (hkey : t.dedup.get? key = some o) :
    ∃ earlier, (appends events)[o]? = some (earlier, o) ∧ earlier.dedupKey = key ∧
      earlier.producerId ≠ "" ∧
      (((appends events).drop (o + 1)).filter (·.1.producerId ≠ "")).length < dedupCapacity := by
  obtain ⟨dropped, kept, hw⟩ := h.window
  have horder := (hw.ok.mem_iff key).mpr (OrdMap.contains_iff.mpr ⟨o, hkey⟩)
  rw [hw.order_eq] at horder
  obtain ⟨x, hx, rfl⟩ := List.mem_map.mp horder
  obtain rfl := Option.some.inj ((hw.offset x hx).symm.trans hkey)
  obtain ⟨pre, post, rfl⟩ := List.append_of_mem hx
  have hkeyed : x ∈ keyedAppends events := hw.split ▸ List.mem_append_right _ hx
  obtain ⟨hmem, hid⟩ := List.mem_filter.mp hkeyed
  obtain ⟨i, hi⟩ := List.mem_iff_getElem?.mp hmem
  have hoffset : x.2 = i := hm.offset_eq (hm.length_le hnext) hi
  have hget : (appends events)[x.2]? = some x := by rw [hoffset, hi]
  have hid : x.1.producerId ≠ "" := by simpa using hid
  refine ⟨x.1, hget, rfl, hid, ?_⟩
  -- the message splits the keyed ones in one way only
  have hsplit : keyedAppends events = (dropped ++ pre) ++ x :: post := by
    rw [hw.split, List.append_assoc]
  have hnodup := hm.keyed_nodup hnext
  rw [hsplit, List.nodup_middle, List.nodup_cons, List.mem_append, not_or] at hnodup
  obtain ⟨-, -, hpost⟩ := (List.append_cons_inj_of_notMem hnodup.1.1 hnodup.1.2).mp
    (hsplit.symm.trans (keyedAppends_split hget hid))
  have hle : (pre ++ x :: post).length ≤ dedupCapacity := by
    have hlen := h.order_le
    rwa [hw.order_eq, List.length_map] at hlen
  rw [← hpost]
  simp only [List.length_append, List.length_cons] at hle
  omega

/-- Of two messages with one key, both in the window, neither is before the
other. -/
theorem DedupLogged.not_before (h : DedupLogged events t)
    (hret : ∀ o, PurgedPast events o ↔ o < retired)
    {x y : ProduceItem × Offset} (hx : (appends events)[o]? = some x)
    (hy : (appends events)[o']? = some y) (hkey : x.1.dedupKey = y.1.dedupKey)
    (hid : x.1.producerId ≠ "") (hunretired : retired ≤ x.2)
    (hwindow : (((appends events).drop (o + 1)).filter (·.1.producerId ≠ "")).length <
      dedupCapacity) : ¬o < o' := by
  intro hlt
  have hsplit := keyedAppends_split hx hid
  have hmem : y ∈ ((appends events).drop (o + 1)).filter (·.1.producerId ≠ "") := by
    refine List.mem_filter.mpr ⟨List.mem_iff_getElem?.mpr ⟨o' - (o + 1), ?_⟩, ?_⟩
    · rw [List.getElem?_drop, Nat.add_sub_cancel' hlt, hy]
    · obtain ⟨hproducer, -⟩ := Prod.mk.inj (toLex.injective hkey)
      exact decide_eq_true (hproducer ▸ hid)
  obtain ⟨mid, post, hmid⟩ := List.append_of_mem hmem
  rw [hmid] at hsplit hwindow
  rcases h.repeats _ x mid y post hsplit hkey with hlong | hpurged
  · rw [List.length_append] at hwindow
    omega
  · exact absurd ((hret _).mp hpurged) (not_lt.mpr hunretired)

theorem KeyWindow.sorted {order : List DedupKey} {dedup : OrdMap DedupKey Offset}
    {dropped kept : List (ProduceItem × Offset)} (h : KeyWindow events order dedup dropped kept)
    (hm : LogMatches events t) : DedupSorted order dedup := by
  have hkeyed : kept.Sublist (keyedAppends events) := h.split ▸ List.sublist_append_right ..
  have hgrow := hm.nondecreasing.sublist (hkeyed.trans List.filter_sublist)
  rw [DedupSorted, h.order_eq, List.pairwise_map]
  refine hgrow.imp_of_mem fun {x y} hx hy hle o o' ho ho' => ?_
  rw [h.offset x hx] at ho
  rw [h.offset y hy] at ho'
  exact Option.some.inj ho ▸ Option.some.inj ho' ▸ hle

/-- The table has the offsets that the log recalls. -/
theorem Recorded.recalls_iff {a : BrokerTopic} (h : Recorded a.log a.retired t)
    (hnext : t.nextOffset < u64Max) (hid : item.producerId ≠ "") :
    t.dedup.get? item.dedupKey = some o ↔ a.Recalls item o := by
  obtain ⟨events, hm, hd, hlog, hret⟩ := h.events
  constructor
  · intro hkey
    obtain ⟨earlier, hget, hsame, -, hwindow⟩ := hd.found hm hnext hkey
    refine ⟨hid, h.unretired _ _ hkey, ⟨earlier, ?_, hsame⟩, ?_⟩
    · rw [hlog, hm.getElem?_map hnext, hget]
    · rwa [hlog, length_keyed_drop]
  · rintro ⟨-, hunretired, ⟨earlier, hget, hsame⟩, hwindow⟩
    rw [hlog, hm.getElem?_map hnext] at hget
    rw [hlog, length_keyed_drop] at hwindow
    have hid' : earlier.producerId ≠ "" := by
      obtain ⟨hproducer, -⟩ := Prod.mk.inj (toLex.injective hsame)
      exact hproducer ▸ hid
    cases hfind : t.dedup.get? item.dedupKey with
    | none =>
        obtain ⟨dropped, kept, hw⟩ := hd.window
        rcases hw.dropped_of_absent (keyedAppends_split hget hid') (hsame ▸ hfind) with
          hlong | hpurged
        · exact absurd hlong (Nat.not_le.mpr hwindow)
        · exact absurd ((hret _).mp hpurged) (not_lt.mpr hunretired)
    | some o' =>
        obtain ⟨earlier', hget', hsame', hid'', hwindow'⟩ := hd.found hm hnext hfind
        have hle := hd.not_before hret hget hget' (hsame.trans hsame'.symm) hid' hunretired hwindow
        have hge := hd.not_before hret hget' hget (hsame'.trans hsame.symm) hid''
          (h.unretired _ _ hfind) hwindow'
        rw [le_antisymm (not_lt.mp hle) (not_lt.mp hge)]

end Recalls

/-! ## Topics -/

/-- A topic of the queue, with the lease counter at `n`, and what it is to
the broker. -/
structure TopicModels (n : LeaseId) (a : BrokerTopic) (t : TopicState) : Prop where
  shape : TopicShape t
  sound : TopicSound n t
  recorded : Recorded a.log a.retired t
  kept : a.kept = t.first
  consumers : a.consumers = t.groups.mapVals fun _ g => g.view
  settings : a.settings = t.settings

variable {n n' : LeaseId} {a a' : BrokerTopic} {t t' : TopicState}

theorem Recorded.length_eq {log : List ProduceItem} {retired : Offset} (h : Recorded log retired t)
    (hnext : t.nextOffset < u64Max) : log.length = t.nextOffset := by
  obtain ⟨events, hm, -, rfl, -⟩ := h.events
  rw [List.length_map, hm.next_eq hnext]

theorem Recorded.retired_le {log : List ProduceItem} {retired : Offset}
    (h : Recorded log retired t) : retired ≤ t.first := by
  obtain ⟨events, -, hd, -, hret⟩ := h.events
  by_contra hlt
  obtain ⟨boundary, hmem, hpast⟩ := (hret t.first).mpr (not_le.mp hlt)
  exact absurd (hd.purged_le boundary hmem) (not_le.mpr hpast)

/-- The record is about the messages and the dedup table only. -/
theorem Recorded.keep {log : List ProduceItem} {retired : Offset} (h : Recorded log retired t)
    (hnext : t'.nextOffset = t.nextOffset) (hmessages : t'.messages = t.messages)
    (horder : t'.dedupOrder = t.dedupOrder) (hdedup : t'.dedup = t.dedup) :
    Recorded log retired t' := by
  obtain ⟨events, hm, hd, hlog, hret⟩ := h.events
  have hfirst : t'.first = t.first := first_congr hmessages hnext
  refine ⟨⟨events, hm.keep rfl hnext (fun hget => hmessages ▸ hget),
    hd.keep horder hdedup hfirst.ge, hlog, hret⟩, fun key o hkey => ?_⟩
  exact h.unretired key o (hdedup ▸ hkey)

/-- Steps that neither append nor purge leave the log and the dedup table. -/
theorem Recorded.steps {log : List ProduceItem} {retired : Offset} {req : AppRequest} {τ : TopicId}
    (hitems : req.items = []) (hsteps : TopicSteps req τ (t, n) (t', n'))
    (hshape : TopicShape t) (h : Recorded log retired t) :
    TopicShape t' ∧ Recorded log retired t' := by
  suffices hall : ∀ s : TopicState × LeaseId, TopicSteps req τ (t, n) s →
      TopicShape s.1 ∧ Recorded log retired s.1 from hall _ hsteps
  intro s hs
  induction hs with
  | refl => exact ⟨hshape, h⟩
  | tail _ hstep ih =>
      obtain ⟨op, hallow, hpre, rfl⟩ := hstep
      obtain ⟨hshape, hrecorded⟩ := ih
      obtain ⟨happend, hpurge⟩ := hallow.of_no_items hitems
      obtain ⟨events, hm, hd, hlog, hret⟩ := hrecorded.events
      refine ⟨hshape.run hpre, ⟨events, ?_, ?_, hlog, hret⟩, ?_⟩
      · exact (logMatches_invariant τ).other hshape hpre happend hpurge hm
      · exact (dedupLogged_invariant τ).other hshape hpre happend hpurge hd
      · rw [(TopicOp.run_dedup_eq happend hpurge _).2]
        exact hrecorded.unretired

theorem Recorded.purge {log : List ProduceItem} {retired : Offset} (h : Recorded log retired t)
    (hshape : TopicShape t) {now : Nat} (hset : purgeSet t now ≠ ∅)
    (hle : t.first ≤ purgeBoundary t now) :
    Recorded log (purgeBoundary t now) (purgeRetained t now) := by
  obtain ⟨events, hm, hd, hlog, hret⟩ := h.events
  have hevents : purgeEvents t now = [.purged (purgeBoundary t now)] := by
    rw [purgeEvents, if_neg hset]
  refine ⟨⟨events ++ purgeEvents t now, (logMatches_invariant "").purge now hshape hm,
    hd.purge hshape now, ?_, fun o => ?_⟩, fun key o hkey => ?_⟩
  · rw [appends_append, appends_purgeEvents, List.append_nil, hlog]
  · rw [hevents]
    constructor
    · rintro ⟨boundary, hmem, hlt⟩
      rcases List.mem_append.mp hmem with hmem | hmem
      · exact ((hret o).mp ⟨boundary, hmem, hlt⟩).trans_le (h.retired_le.trans hle)
      · cases List.mem_singleton.mp hmem
        exact hlt
    · exact fun hlt => ⟨_, List.mem_append_right _ (List.mem_singleton_self _), hlt⟩
  · obtain ⟨dropped, kept, hw⟩ := hd.window
    have hpruned := congrArg Prod.snd (purgeRetained_dedup hset)
    rw [pruneDedupLoop_eq _ hw.ok (hw.sorted hm)] at hpruned
    rw [show (purgeRetained t now).dedup = _ from hpruned, OrdMap.get?_filter_eq_some] at hkey
    exact of_decide_eq_true hkey.2

theorem view_purged (hnext : t.nextOffset ≤ u64Max) (h : TopicSound n t) {γ : GroupId}
    {g : GroupState} (hg : t.groups.get? γ = some g) {boundary : Offset}
    (hle : boundary ≤ t.nextOffset) :
    (if boundary > g.ackWatermark then g.advanceWatermark boundary else g).view =
      g.view.finish (Set.Iio boundary) := by
  have hcanonical := (h.groups hg).canonical
  split_ifs with hlow
  · exact GroupState.view_advanceWatermark hnext hcanonical hle
  · -- the group is past the boundary
    have hle : boundary ≤ g.ackWatermark := not_lt.mp hlow
    have hself : g.view.finish (Set.Iio boundary) = g.view := by
      refine Consumer.finish_eq_self (fun o ho => Or.inl (lt_of_lt_of_le ho hle)) ?_
      intro id l hl
      exact not_lt.mpr (hle.trans (hcanonical.leased_ge (hcanonical.agree.leased hl)))
    exact hself.symm

theorem TopicSteps.healthy {req : AppRequest} {τ : TopicId}
    (hsteps : TopicSteps req τ (t, n) (t', n')) (h : TopicHealthy n t) : TopicHealthy n' t' := by
  suffices hall : ∀ s : TopicState × LeaseId, TopicSteps req τ (t, n) s → TopicHealthy s.2 s.1 from
    hall _ hsteps
  intro s hs
  induction hs with
  | refl => exact h
  | tail _ hstep ih =>
      obtain ⟨op, -, hpre, rfl⟩ := hstep
      exact ih.run hpre

namespace TopicModels

/-- A change of the groups, of what is kept or of the settings. -/
theorem steps (h : TopicModels n a t) {req : AppRequest} {τ : TopicId} (hitems : req.items = [])
    (hsteps : TopicSteps req τ (t, n) (t', n')) (hn : n' < u64Max) (hnext : t'.nextOffset < u64Max)
    (hlog : a'.log = a.log) (hretired : a'.retired = a.retired) (hkept : a'.kept = t'.first)
    (hconsumers : a'.consumers = t'.groups.mapVals fun _ g => g.view)
    (hsettings : a'.settings = t'.settings) : TopicModels n' a' t' := by
  obtain ⟨hshape, hrecorded⟩ := h.recorded.steps hitems hsteps h.shape
  refine ⟨hshape, hsteps.healthy (fun _ _ => h.sound) hn hnext, ?_, hkept, hconsumers, hsettings⟩
  rwa [hlog, hretired]

theorem mono (h : TopicModels n a t) (hn : n ≤ n') : TopicModels n' a t :=
  { h with sound := h.sound.mono hn }

theorem empty (n : LeaseId) : TopicModels n {} {} where
  shape := TopicShape.empty
  sound := topicSound_empty n
  recorded := by
    refine ⟨⟨[], (logMatches_invariant "").empty, DedupLogged.empty, rfl, fun o => ?_⟩, nofun⟩
    exact ⟨fun ⟨_, hmem, _⟩ => absurd hmem List.not_mem_nil,
      fun ho => absurd ho (Nat.not_lt_zero o)⟩
  kept := rfl
  consumers := rfl
  settings := rfl

theorem get?_consumers (h : TopicModels n a t) (γ : GroupId) :
    a.consumers.get? γ = (t.groups.get? γ).map GroupState.view := by
  rw [h.consumers, OrdMap.get?_mapVals]

theorem message_iff (h : TopicModels n a t) (hnext : t.nextOffset < u64Max) {o : Offset}
    {m : Message} : t.messages.get? o = some m ↔
      a.kept ≤ o ∧ ∃ item, a.log[o]? = some item ∧ m = item.message o := by
  obtain ⟨events, hm, -, hlog, -⟩ := h.recorded.events
  have hmessage : ∀ {m}, t.messages.get? o = some m →
      ∃ item, a.log[o]? = some item ∧ m = item.message o := by
    intro m hget
    obtain ⟨item, hitem, rfl⟩ := hm.message (hm.length_le hnext) hget
    exact ⟨item, by rw [hlog, hm.getElem?_map hnext, hitem], rfl⟩
  rw [h.kept]
  constructor
  · exact fun hget => ⟨first_le_of_get hget, hmessage hget⟩
  · rintro ⟨hfirst, item, hitem, rfl⟩
    have hlt : o < t.nextOffset := by
      rw [← h.recorded.length_eq hnext]
      exact (List.getElem?_eq_some_iff.mp hitem).1
    obtain ⟨m, hget⟩ := h.shape.dense o hfirst hlt
    obtain ⟨item', hitem', rfl⟩ := hmessage hget
    rw [hget, Option.some.inj (hitem'.symm.trans hitem)]

/-- The messages are the end of the log. -/
theorem entries_eq (h : TopicModels n a t) (hnext : t.nextOffset < u64Max) :
    t.messages.entries =
      (a.log.drop a.kept).mapIdx fun i item => (a.kept + i, item.message (a.kept + i)) := by
  have hsorted : ((a.log.drop a.kept).mapIdx fun i item =>
      (a.kept + i, item.message (a.kept + i))).Pairwise fun x y => x.1 < y.1 := by
    rw [List.pairwise_iff_getElem]
    intro i j hi hj hij
    rw [List.getElem_mapIdx, List.getElem_mapIdx]
    exact Nat.add_lt_add_left hij _
  have hmap : t.messages = ⟨_, hsorted⟩ := by
    refine OrdMap.ext_get? fun o => Option.ext fun m => ?_
    rw [h.message_iff hnext, OrdMap.get?_eq_some, List.mem_mapIdx]
    constructor
    · rintro ⟨hle, item, hitem, rfl⟩
      obtain ⟨hlt, rfl⟩ := List.getElem?_eq_some_iff.mp hitem
      refine ⟨o - a.kept, by rw [List.length_drop]; exact Nat.sub_lt_sub_right hle hlt, ?_⟩
      simp only [List.getElem_drop, Nat.add_sub_cancel' hle]
    · rintro ⟨i, hi, heq⟩
      obtain ⟨rfl, rfl⟩ := Prod.mk.inj heq
      refine ⟨Nat.le_add_right .., _, ?_, rfl⟩
      rw [← List.getElem?_drop, List.getElem?_eq_getElem hi]
  exact congrArg OrdMap.entries hmap

theorem size_eq (h : TopicModels n a t) (hnext : t.nextOffset < u64Max) :
    t.messages.size = (a.log.drop a.kept).length := by
  rw [OrdMap.size, h.entries_eq hnext, List.length_mapIdx]

/-- Retention counts alike. -/
theorem surplus_eq (h : TopicModels n a t) (hnext : t.nextOffset < u64Max) (now : Nat) :
    a.surplus now = purgeCount t now := by
  have hretention : a.settings.retention = effectiveRetention t := by
    rw [h.settings]
    rfl
  have hstamps : t.messages.entries.map (·.2.tsMs) = (a.log.drop a.kept).map (·.tsMs) := by
    rw [h.entries_eq hnext]
    refine List.ext_getElem? fun i => ?_
    rw [List.getElem?_map, List.getElem?_mapIdx, List.getElem?_map, Option.map_map]
    rfl
  have haged : ∀ age, (t.messages.entries.takeWhile fun e => now - e.2.tsMs > age).length =
      ((a.log.drop a.kept).takeWhile fun item => now - item.tsMs > age).length := by
    intro age
    have hmap := congrArg (fun l => (l.takeWhile fun ts => now - ts > age).length) hstamps
    simpa only [List.takeWhile_map, List.length_map, Function.comp_def] using hmap
  rw [BrokerTopic.surplus, purgeCount, agedCount, hretention, haged, h.size_eq hnext]

/-! ## Producing -/

theorem append (h : TopicModels n a t) (hn : n < u64Max) (hnext : t.nextOffset < u64Max)
    {item : ProduceItem} (hnew : item.producerId ≠ "" → t.dedup.get? item.dedupKey = none) :
    TopicModels n { a with log := a.log ++ [item] } (appendMessage t item) where
  shape := h.shape.append item
  sound := by
    have hpre : TopicOp.Pre t n (.append item) := hnew
    exact h.sound.run hpre hn hnext
  recorded := by
    obtain ⟨events, hm, hd, hlog, hret⟩ := h.recorded.events
    refine ⟨⟨events ++ [.appended item t.nextOffset], hm.append item, hd.append h.shape hnew, ?_,
      fun o => ?_⟩, fun key o hkey => ?_⟩
    · rw [appends_append, List.map_append, ← hlog]
      rfl
    · rw [← hret o]
      refine ⟨fun ⟨boundary, hmem, hlt⟩ => ⟨boundary, ?_, hlt⟩, fun hp => hp.append _⟩
      rcases List.mem_append.mp hmem with hmem | hmem
      · exact hmem
      · cases List.mem_singleton.mp hmem
    · have hold : t.dedup.get? key = some o ∨ o = t.nextOffset := by
        unfold appendMessage at hkey
        simp only at hkey
        split_ifs at hkey
        · have hinsert := evictDedup_sub hkey
          rw [OrdMap.get?_insert] at hinsert
          split_ifs at hinsert
          · exact .inr (Option.some.inj hinsert).symm
          · exact .inl hinsert
        · exact .inl hkey
      rcases hold with hkey | rfl
      · exact h.recorded.unretired key o hkey
      · exact h.recorded.retired_le.trans h.shape.first_le
  kept := by rw [appendMessage_first t item h.shape, ← h.kept]
  consumers := by rw [appendMessage_groups, ← h.consumers]
  settings := by rw [TopicState.settings_appendMessage, ← h.settings]

/-- The first message that retention leaves. -/
theorem purgeBoundary_eq (h : TopicModels n a t) (hnext : t.nextOffset < u64Max) (now : Nat) :
    purgeBoundary t now = a.kept + purgeCount t now := by
  have hlen := h.recorded.length_eq hnext
  have hkept : a.kept ≤ a.log.length := by
    rw [h.kept, hlen]
    exact h.shape.first_le
  have hle : purgeCount t now ≤ (a.log.drop a.kept).length :=
    h.size_eq hnext ▸ purgeCount_le t now
  have hfirst : (purgeRetained t now).messages.firstKey? =
      (a.log.drop a.kept)[purgeCount t now]?.map fun _ => a.kept + purgeCount t now := by
    rw [OrdMap.firstKey?, OrdMap.keys, purgeRetained_entries, List.head?_map, List.head?_drop,
      h.entries_eq hnext, List.getElem?_mapIdx, Option.map_map]
    rfl
  rw [purgeBoundary, TopicState.first, hfirst]
  rcases Nat.lt_or_eq_of_le hle with hlt | heq
  · rw [List.getElem?_eq_getElem hlt]
    rfl
  · -- nothing is left
    rw [List.getElem?_eq_none heq.ge, Option.map_none, Option.getD_none, heq,
      purgeRetained_nextOffset, List.length_drop, Nat.add_sub_cancel' hkept, hlen]

theorem retain (h : TopicModels n a t) (hn : n < u64Max) (hnext : t.nextOffset < u64Max)
    (now : Nat) : TopicModels n (a.retain now) (purgeRetained t now) := by
  rw [BrokerTopic.retain, h.surplus_eq hnext]
  split_ifs with hzero
  · rwa [purgeRetained_of_empty (purgeSet_eq_empty.mpr hzero)]
  have hset : purgeSet t now ≠ ∅ := fun hempty => hzero (purgeSet_eq_empty.mp hempty)
  have hpre : TopicOp.Pre t n (.purge now) := trivial
  have hkept : t.first ≤ purgeBoundary t now := by
    rw [h.purgeBoundary_eq hnext, ← h.kept]
    exact Nat.le_add_right ..
  rw [← h.purgeBoundary_eq hnext now]
  refine ⟨h.shape.run hpre, h.sound.run hpre hn hnext, h.recorded.purge h.shape hset hkept, rfl,
    ?_, ?_⟩
  · refine OrdMap.ext_get? fun γ => ?_
    rw [purgeRetained_groups hset, h.consumers]
    simp only [OrdMap.get?_mapVals, Option.map_map]
    refine Option.map_congr fun g hg => ?_
    exact (view_purged hnext.le h.sound hg (h.sound.purgeBoundary_le now)).symm
  · rw [TopicState.settings_purgeRetained, ← h.settings]

theorem produce (h : TopicModels n a t) (hn : n < u64Max) (hnext : t.nextOffset < u64Max)
    {item : ProduceItem} (hnext' : (produceTopic t item).1.nextOffset < u64Max) :
    ∃ a', a.Produces item (produceTopic t item).2 a' ∧
      TopicModels n a' (produceTopic t item).1 := by
  have hrecalls := fun o (hid : item.producerId ≠ "") => h.recorded.recalls_iff hnext hid (o := o)
  cases hdup : (if item.producerId ≠ "" then t.dedup.get? item.dedupKey else none) with
  | some o =>
      have hid : item.producerId ≠ "" := by
        intro hid
        rw [if_neg (not_not.mpr hid)] at hdup
        cases hdup
      have heq : produceTopic t item = (purgeRetained t item.tsMs, o) := by
        simp only [produceTopic, hdup]
      rw [if_pos hid, hrecalls o hid] at hdup
      rw [heq]
      exact ⟨_, .inl ⟨hdup, rfl⟩, h.retain hn hnext item.tsMs⟩
  | none =>
      have hnew : item.producerId ≠ "" → t.dedup.get? item.dedupKey = none := by
        intro hid
        rwa [if_pos hid] at hdup
      have heq : produceTopic t item =
          (purgeRetained (appendMessage t item) item.tsMs, t.nextOffset) := by
        simp only [produceTopic, hdup]
      have hforgotten : ∀ o, ¬a.Recalls item o := by
        intro o hrecall
        have hsome := (hrecalls o hrecall.1).mpr hrecall
        rw [hnew hrecall.1] at hsome
        cases hsome
      rw [heq, purgeRetained_nextOffset] at hnext'
      rw [heq]
      exact ⟨_, .inr ⟨hforgotten, (h.recorded.length_eq hnext).symm, rfl⟩,
        (h.append hn hnext hnew).retain hn hnext' item.tsMs⟩

/-! ## Settings -/

theorem configured (h : TopicModels n a t) (change : TopicSettings → TopicSettings)
    {s : TopicSettings} (hs : change t.settings = s) :
    TopicModels n { a with settings := change a.settings }
      { t with rateMilliPerSec := s.rateMilliPerSec, burst := s.burst
               retainMaxMessages := s.retainMaxMessages, retainMaxAgeMs := s.retainMaxAgeMs } where
  shape := ⟨h.shape.1, h.shape.2, h.shape.3, h.shape.4, h.shape.5, h.shape.6⟩
  sound := ⟨h.sound.1, h.sound.2, h.sound.3, h.sound.4, h.sound.5⟩
  recorded := h.recorded.keep rfl rfl rfl rfl
  kept := h.kept
  consumers := h.consumers
  settings := by rw [h.settings, hs]; rfl

end TopicModels

end HermesMq
