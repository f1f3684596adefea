import HermesMq.DedupWindow
import HermesMq.GroupLimit
import HermesMq.Isolation

/-!
# The limits of the replicated state

What bounds the size of a reachable queue: the number of topics and groups
and the length of their names, the dedup window and its producer ids, and,
per group, the acked offsets and leases, of which there are no more than
messages retained.

The last bound rests on retention never leaving a group behind: what a
group holds, acked or leased, is at or above its watermark, and what is at
or above the watermark of a group is retained (`TopicHeld`). The one
offset this misses is the last `u64`, on which a saturated topic stores
message after message: `next_offset` is then no longer past the messages,
and retention that drops the message there leaves the lease on it.
-/

namespace HermesMq

/-! ## What a group holds -/

namespace GroupState

/-- The group keeps `o` on its books, as acked or as leased. -/
def Holding (g : GroupState) (o : Offset) : Prop :=
  o ∈ g.ackedAbove ∨ ∃ id l, g.inFlight.get? id = some l ∧ l.offset = o

/-- No lease is below the watermark or on an acked offset. -/
def LeasesAhead (g : GroupState) : Prop :=
  ∀ id l, g.inFlight.get? id = some l → g.ackWatermark ≤ l.offset ∧ l.offset ∉ g.ackedAbove

/-- `g'` has no lease that `g` has not, and nothing acked that `g` does not
hold. -/
structure Narrows (g g' : GroupState) : Prop where
  inFlight : ∀ {id l}, g'.inFlight.get? id = some l → g.inFlight.get? id = some l
  acked : ∀ {o}, o ∈ g'.ackedAbove → g.Holding o

variable {g g' g'' : GroupState}

theorem Narrows.holding (h : Narrows g g') {o : Offset} (ho : g'.Holding o) : g.Holding o := by
  rcases ho with ho | ⟨id, l, hl, rfl⟩
  · exact h.acked ho
  · exact Or.inr ⟨id, l, h.inFlight hl, rfl⟩

theorem Narrows.trans (h : Narrows g g') (h' : Narrows g' g'') : Narrows g g'' :=
  ⟨fun hl => h.inFlight (h'.inFlight hl), fun ho => h.holding (h'.acked ho)⟩

theorem Narrows.of_eq (hi : g'.inFlight = g.inFlight) (ha : g'.ackedAbove = g.ackedAbove) :
    Narrows g g' :=
  ⟨fun hl => hi ▸ hl, fun ho => Or.inl (ha ▸ ho)⟩

theorem narrows_removeLease (g : GroupState) (id : LeaseId) : Narrows g (g.removeLease id) := by
  constructor
  · intro i l hl
    rw [removeLease_inFlight] at hl
    split_ifs at hl
    exact hl
  · intro o ho
    exact Or.inl ((sameButLeases_removeLease g id).ackedAbove ▸ ho)

theorem narrows_dropLeases (g : GroupState) (p : Lease → Bool) : Narrows g (g.dropLeases p) :=
  List.foldlRecOn (motive := Narrows g) _ _ (Narrows.of_eq rfl rfl) fun b hb id _ =>
    hb.trans (narrows_removeLease b id)

theorem narrows_absorbAcked (g : GroupState) : Narrows g g.absorbAcked :=
  ⟨id, fun ho => Or.inl (absorb_subset _ _ _ ho)⟩

theorem narrows_ackLease (g : GroupState) (id : LeaseId) : Narrows g (g.ackLease id) := by
  unfold ackLease
  split
  · exact Narrows.of_eq rfl rfl
  · rename_i l hl
    have hremove := narrows_removeLease g id
    constructor
    · intro i l' hl'
      rw [markAcked_inFlight] at hl'
      exact hremove.inFlight hl'
    · intro o ho
      unfold markAcked at ho
      split_ifs at ho
      · exact hremove.acked ho
      · rcases Finset.mem_insert.mp (absorb_subset _ _ _ ho) with rfl | ho
        · exact Or.inr ⟨id, l, hl, rfl⟩
        · exact hremove.acked ho

theorem narrows_advanceWatermark (g : GroupState) (upto : Offset) :
    Narrows g (g.advanceWatermark upto) := by
  have hraise : Narrows g (g.raise (max g.ackWatermark upto)) :=
    ⟨id, fun ho => Or.inl (Finset.mem_filter.mp ho).1⟩
  rw [advanceWatermark_eq]
  exact (hraise.trans (narrows_dropLeases _ _)).trans (narrows_absorbAcked _)

namespace LeasesAhead

theorem of_sub (h : g.LeasesAhead) (hs : SameButLeases g g')
    (hi : ∀ {id l}, g'.inFlight.get? id = some l → g.inFlight.get? id = some l) :
    g'.LeasesAhead := by
  intro id l hl
  rw [hs.ackWatermark, hs.ackedAbove]
  exact h id l (hi hl)

theorem removeLease (h : g.LeasesAhead) (id : LeaseId) : (g.removeLease id).LeasesAhead :=
  h.of_sub (sameButLeases_removeLease g id) (narrows_removeLease g id).inFlight

theorem takeLease (h : g.LeasesAhead) {messages : OrdMap Offset Message} {o : Offset}
    (hdel : Deliverable messages g o) (id : LeaseId) (d : Nat) :
    (g.takeLease id o d).LeasesAhead := by
  intro i l hl
  rw [GroupState.takeLease, OrdMap.get?_insert] at hl
  split_ifs at hl
  · obtain rfl := Option.some.inj hl
    exact ⟨hdel.above, hdel.unacked⟩
  · exact h i l hl

/-- Absorbing stops below every lease, as none is acked. -/
theorem absorbAcked (h : g.LeasesAhead) : g.absorbAcked.LeasesAhead := by
  intro id l hl
  obtain ⟨hle, hnot⟩ := h id l hl
  exact ⟨absorb_le_of_not_mem hle hnot, fun ho => hnot (absorb_subset _ _ _ ho)⟩

theorem ackLease (h : g.LeasesAhead) (hagree : g.LeasesAgree) (id : LeaseId) :
    (g.ackLease id).LeasesAhead := by
  unfold GroupState.ackLease
  split
  · exact h
  · rename_i l hl
    unfold markAcked
    split_ifs
    · exact h.removeLease id
    · refine absorbAcked fun i l' hl' => ?_
      obtain ⟨hle, hnot⟩ := h.removeLease id i l' hl'
      refine ⟨hle, fun hmem => ?_⟩
      rcases Finset.mem_insert.mp hmem with heq | hmem
      · -- no other lease is on the offset being acked
        rw [show _ = _ from removeLease_inFlight g id i] at hl'
        split_ifs at hl' with hid
        exact hid (hagree.unique hl' hl heq)
      · exact hnot hmem

theorem advanceWatermark (h : g.LeasesAhead) (upto : Offset) :
    (g.advanceWatermark upto).LeasesAhead := by
  rw [advanceWatermark_eq]
  refine absorbAcked fun id l hl => ?_
  have hs := sameButLeases_dropLeases (g.raise (max g.ackWatermark upto))
    fun l => l.offset < max g.ackWatermark upto
  rw [dropLeases_inFlight, Option.filter_eq_some_iff] at hl
  rw [hs.ackWatermark, hs.ackedAbove]
  refine ⟨?_, fun ho => (h id l hl.1).2 (Finset.mem_filter.mp ho).1⟩
  change max g.ackWatermark upto ≤ l.offset
  simpa using hl.2

end LeasesAhead

end GroupState

/-- What a step leaves a group holding, it held before or has just leased. -/
theorem TopicOp.groupRun_holding {t : TopicState} {n : LeaseId} {op : TopicOp}
    (hpre : op.Pre t n) {γ : GroupId} {g : GroupState} (hg : t.groups.get? γ = some g)
    {o : Offset} (ho : (op.groupRun t γ g).Holding o) :
    g.Holding o ∨ Deliverable t.messages g o := by
  have hstep := op.groupStep t γ g
  generalize op.groupRun t γ g = g' at hstep ho
  cases hstep with
  | same => exact Or.inl ho
  | purge now => exact Or.inl ((g.narrows_advanceWatermark _).holding ho)
  | sweep now =>
      have hsame := SameCursor.stamp g now
      exact Or.inl ((GroupState.Narrows.of_eq hsame.inFlight hsame.ackedAbove).holding ho)
  | beginPoll ts =>
      exact Or.inl (((g.narrows_dropLeases _).trans (GroupState.Narrows.of_eq rfl rfl)).holding ho)
  | lease id o' d =>
      rcases ho with ho | ⟨i, l, hl, rfl⟩
      · exact Or.inl (Or.inl ho)
      · rw [GroupState.takeLease, OrdMap.get?_insert] at hl
        split_ifs at hl
        · obtain rfl := Option.some.inj hl
          exact Or.inr (hpre.deliverable hg)
        · exact Or.inl (Or.inr ⟨i, l, hl, rfl⟩)
  | ack id => exact Or.inl ((g.narrows_ackLease id).holding ho)
  | nack id => exact Or.inl ((g.narrows_removeLease id).holding ho)
  | commit upto now =>
      have htouch : GroupState.Narrows (g.advanceWatermark upto)
          ((g.advanceWatermark upto).touch now) := by
        cases now <;> exact GroupState.Narrows.of_eq rfl rfl
      exact Or.inl (((g.narrows_advanceWatermark upto).trans htouch).holding ho)

theorem TopicOp.groupRun_leasesAhead {t : TopicState} {n : LeaseId} {op : TopicOp}
    (hpre : op.Pre t n) {γ : GroupId} {g : GroupState} (hg : t.groups.get? γ = some g)
    (hagree : g.LeasesAgree) (h : g.LeasesAhead) : (op.groupRun t γ g).LeasesAhead := by
  have hstep := op.groupStep t γ g
  generalize op.groupRun t γ g = g' at hstep ⊢
  cases hstep with
  | same => exact h
  | purge now => exact h.advanceWatermark _
  | sweep now =>
      rw [GroupState.stamp]
      split_ifs
      · exact h
      · exact h
  | beginPoll ts =>
      have hexpire : (g.expire ts).LeasesAhead :=
        h.of_sub (GroupState.sameButLeases_dropLeases g _) (g.narrows_dropLeases _).inFlight
      exact hexpire
  | lease id o d => exact h.takeLease (hpre.deliverable hg) id d
  | ack id => exact h.ackLease hagree id
  | nack id => exact h.removeLease id
  | commit upto now => cases now <;> exact h.advanceWatermark upto

/-! ## What a group holds is retained -/

/-- Offset `o` at or above the watermark `w` is retained, or the topic is
saturated and `w` is at its end. -/
def TopicState.Keeps (t : TopicState) (w o : Offset) : Prop :=
  (∃ m, t.messages.get? o = some m) ∨ (o ≤ u64Max ∧ u64Max ≤ w ∧ t.nextOffset = u64Max)

/-- Every group's leases are ahead of it, and what it holds is retained. -/
structure TopicHeld (t : TopicState) : Prop extends TopicNormal t where
  keys_lt : ∀ {o m}, t.messages.get? o = some m → o < t.nextOffset ∨ t.nextOffset = u64Max
  ahead : ∀ {γ g}, t.groups.get? γ = some g → g.LeasesAhead
  held : ∀ {γ g}, t.groups.get? γ = some g → ∀ {o}, g.Holding o → t.Keeps g.ackWatermark o

namespace TopicHeld

variable {t : TopicState} {n : LeaseId} {op : TopicOp}

theorem empty : TopicHeld {} where
  toTopicNormal := TopicNormal.empty
  keys_lt h := by cases h
  ahead h := by cases h
  held h := by cases h

theorem watermark_le_of_holding (h : TopicNormal t)
    (hahead : ∀ {γ g}, t.groups.get? γ = some g → g.LeasesAhead) {γ : GroupId} {g : GroupState}
    (hg : t.groups.get? γ = some g) {o : Offset} (ho : g.Holding o) : g.ackWatermark ≤ o := by
  rcases ho with ho | ⟨id, l, hl, rfl⟩
  · exact (h.acked_gt hg o ho).le
  · exact (hahead hg id l hl).1

theorem run_nextOffset_full (op : TopicOp) (hfull : t.nextOffset = u64Max) :
    (op.run t).nextOffset = u64Max := by
  by_cases happend : ∃ item, op = .append item
  · obtain ⟨item, rfl⟩ := happend
    rw [TopicOp.run, appendMessage_nextOffset, hfull]
    rfl
  · rw [(TopicOp.run_sub (fun item heq => happend ⟨item, heq⟩) t).1, hfull]

/-- Retention drops a message at or above a watermark only when it drops
all of a saturated topic. -/
theorem keeps_purge (h : TopicHeld t) {now : Nat} {o w : Offset} {m : Message}
    (hm : t.messages.get? o = some m) (hfirst : (purgeRetained t now).first ≤ w) (hw : w ≤ o) :
    (purgeRetained t now).Keeps w o := by
  by_cases hpurged : o ∈ purgeSet t now
  · rcases first_cases (purgeRetained t now) with ⟨m', hm'⟩ | ⟨hend, -⟩
    · -- something below `o` survived, so `o` did
      rw [purgeRetained_messages, OrdMap.get?_filter, Option.filter_eq_some_iff] at hm'
      have hlow := purgeSet_initial t now _ (OrdMap.mem_keys.mpr ⟨m', hm'.1⟩) o hpurged
        (hfirst.trans hw)
      exact absurd hlow (by simpa using hm'.2)
    · rw [hend, purgeRetained_nextOffset] at hfirst
      rcases h.keys_lt hm with hlt | hfull
      · exact absurd hlt (not_lt.mpr (hfirst.trans hw))
      · refine Or.inr ⟨hfull ▸ h.keys_le hm, hfull ▸ hfirst, ?_⟩
        rw [purgeRetained_nextOffset, hfull]
  · refine Or.inl ⟨m, ?_⟩
    rw [purgeRetained_messages, OrdMap.get?_filter, hm, Option.filter_some]
    exact if_pos (by simpa using hpurged)

/-- A step keeps what is ahead of a group it keeps. -/
theorem keeps_run (h : TopicHeld t) (hpre : op.Pre t n) {γ : GroupId} {g g' : GroupState}
    (hg : t.groups.get? γ = some g) (hg' : (op.run t).groups.get? γ = some g')
    (hrise : g.ackWatermark ≤ g'.ackWatermark) {o : Offset} (ho : g'.ackWatermark ≤ o)
    (hkeep : t.Keeps g.ackWatermark o) : (op.run t).Keeps g'.ackWatermark o := by
  rcases hkeep with ⟨m, hm⟩ | ⟨hmax, hend, hfull⟩
  · by_cases hpurge : ∃ now, op = .purge now
    · obtain ⟨now, rfl⟩ := hpurge
      exact h.keeps_purge hm ((h.toTopicShape.run hpre).watermark hg').1 ho
    · by_cases happend : ∃ item, op = .append item
      · obtain ⟨item, rfl⟩ := happend
        refine Or.inl ?_
        rw [TopicOp.run, appendMessage_messages, OrdMap.get?_insert]
        split_ifs
        · exact ⟨_, rfl⟩
        · exact ⟨m, hm⟩
      · refine Or.inl ⟨m, ?_⟩
        rw [TopicOp.messages_above (fun item heq => happend ⟨item, heq⟩)
          (fun now heq => hpurge ⟨now, heq⟩) hg hg' (hrise.trans ho), hm]
  · exact Or.inr ⟨hmax, hend.trans hrise, run_nextOffset_full op hfull⟩

theorem run (h : TopicHeld t) (hpre : op.Pre t n) : TopicHeld (op.run t) := by
  have hnormal := h.toTopicNormal.run hpre
  have hahead : ∀ {γ g'}, (op.run t).groups.get? γ = some g' → g'.LeasesAhead := by
    intro γ g' hg'
    rcases TopicOp.group_of_run hpre hg' with ⟨g, hg, rfl⟩ | ⟨-, now, -, rfl⟩
    · exact op.groupRun_leasesAhead hpre hg (h.leases hg) (h.ahead hg)
    · intro id l hl
      cases hl
  refine ⟨hnormal, fun {o m} hm => ?_, hahead, fun {γ g'} hg' {o} ho => ?_⟩
  · by_cases happend : ∃ item, op = .append item
    · obtain ⟨item, rfl⟩ := happend
      rw [TopicOp.run, appendMessage_messages, OrdMap.get?_insert] at hm
      rw [TopicOp.run, appendMessage_nextOffset]
      have hle : o ≤ t.nextOffset := by
        split_ifs at hm with heq
        · exact heq.le
        · exact h.keys_le hm
      rcases h.nextOffset_le.lt_or_eq with hlt | hfull
      · exact Or.inl (satAdd_one_of_lt hlt ▸ Nat.lt_succ_of_le hle)
      · exact Or.inr (by rw [hfull]; rfl)
    · obtain ⟨hnext, hsub⟩ := TopicOp.run_sub (fun item heq => happend ⟨item, heq⟩) t
      rw [hnext]
      exact h.keys_lt (hsub hm)
  · have hle := watermark_le_of_holding hnormal hahead hg' ho
    rcases TopicOp.group_of_run hpre hg' with ⟨g, hg, rfl⟩ | ⟨-, now, -, rfl⟩
    · refine h.keeps_run hpre hg hg' (h.groupRun_watermark hpre hg).1 hle ?_
      rcases TopicOp.groupRun_holding hpre hg ho with hold | hdel
      · exact h.held hg hold
      · exact Or.inl hdel.retained
    · rcases ho with ho | ⟨id, l, hl, -⟩
      · exact absurd ho (Finset.notMem_empty o)
      · cases hl

end TopicHeld

theorem run_held (reqs : List AppRequest) : (({} : Queue).run reqs).Topics TopicHeld :=
  Queue.TopicsAt.run (fun _ => TopicHeld.empty) (fun _ _ _ ht => ht)
    (fun _ _ _ ht hpre => ht.run hpre) (Queue.topicsAt_empty _) reqs

theorem TopicHeld.acked_card_le {t : TopicState} (h : TopicHeld t) {γ : GroupId} {g : GroupState}
    (hg : t.groups.get? γ = some g) : g.ackedAbove.card ≤ t.messages.size := by
  rw [← Finset.length_toList]
  refine OrdMap.length_le_size g.ackedAbove.nodup_toList fun o ho => ?_
  rw [Finset.mem_toList] at ho
  rcases h.held hg (Or.inl ho) with hm | ⟨hmax, hend, -⟩
  · exact hm
  · exact absurd (h.acked_gt hg o ho) (not_lt.mpr (hmax.trans hend))

/-- A group has at most as many leases as the topic retains messages, or
one, whose message retention has dropped from a saturated topic. -/
theorem TopicHeld.leases_size_le {t : TopicState} (h : TopicHeld t) {γ : GroupId}
    {g : GroupState} (hg : t.groups.get? γ = some g) :
    g.inFlight.size ≤ t.messages.size ∨
      (t.nextOffset = u64Max ∧ t.messages.size = 0 ∧ g.inFlight.size = 1) := by
  by_cases hall : ∀ id l, g.inFlight.get? id = some l → ∃ m, t.messages.get? l.offset = some m
  · exact Or.inl (OrdMap.size_le_of_injective Lease.offset hall fun _ _ _ _ => (h.leases hg).unique)
  · push Not at hall
    obtain ⟨id, l, hl, hlost⟩ := hall
    have hkeep := h.held hg (Or.inr ⟨id, l, hl, rfl⟩)
    obtain ⟨-, hend, hfull⟩ := hkeep.resolve_left fun ⟨m, hm⟩ => hlost m hm
    -- the watermark is the last `u64`, and no lease is elsewhere
    have hlast : ∀ {i l'}, g.inFlight.get? i = some l' → l'.offset = u64Max := by
      intro i l' hl'
      refine le_antisymm ?_ (hend.trans (h.ahead hg i l' hl').1)
      rcases h.held hg (Or.inr ⟨i, l', hl', rfl⟩) with ⟨m, hm⟩ | ⟨hmax, -⟩
      · exact hfull ▸ h.keys_le hm
      · exact hmax
    have hone : g.inFlight.size ≤ [id].length := by
      rw [← OrdMap.length_keys]
      refine (List.subperm_of_subset g.inFlight.keys_nodup fun i hi => ?_).length_le
      obtain ⟨l', hl'⟩ := OrdMap.mem_keys.mp hi
      exact List.mem_singleton.mpr
        ((h.leases hg).unique hl' hl ((hlast hl').trans (hlast hl).symm))
    rcases Nat.lt_or_ge t.messages.size g.inFlight.size with hlt | hge
    · rw [List.length_singleton] at hone
      exact Or.inr ⟨hfull, by omega, by omega⟩
    · exact Or.inl hge

/-! ## Names -/

/-- A refused request changes nothing. -/
theorem apply_rejected {q : Queue} {req : AppRequest} (h : (q.apply req).2.Rejected) :
    (q.apply req).1 = q := by
  obtain ⟨reason, hreason⟩ := h
  cases req with
  | createTopic τ | setRateLimit τ rate burst | setRetention τ cap age | produceMany items
  | produce τ priority contentType payload producerId seq ts | poll τ γ max vis ts
  | pollAuto τ γ max vis ts | commitOffset τ γ o | commitOffsetAt τ γ o ts =>
      simp only [Queue.apply] at hreason ⊢
      split at hreason
      · rfl
      · cases hreason
  | deleteTopic τ | ack τ γ id | ackMany τ γ ids | nack τ γ id | nackMany τ γ ids => cases hreason

namespace Queue

variable {q : Queue} {σ τ : TopicId}

@[simp] theorem updateTopic_contains (f : TopicState → TopicState) :
    (q.updateTopic σ f).topics.contains τ = q.topics.contains τ := by
  rw [Bool.eq_iff_iff, OrdMap.contains_iff, OrdMap.contains_iff, updateTopic_topics]
  cases q.topics.get? τ <;> simp

@[simp] theorem poll_contains (γ : GroupId) (max vis ts : Nat) :
    (q.poll σ γ max vis ts).1.topics.contains τ = q.topics.contains τ := by
  rw [Bool.eq_iff_iff, OrdMap.contains_iff, OrdMap.contains_iff, poll_topics]
  cases q.topics.get? τ <;> simp

theorem putTopic_contains {t : TopicState} (h : (q.putTopic σ t).topics.contains τ = true) :
    q.topics.contains τ = true ∨ τ = σ := by
  rw [OrdMap.contains_iff, putTopic_topics] at h
  split_ifs at h with heq
  · exact Or.inr heq
  · exact Or.inl (OrdMap.contains_iff.mpr h)

theorem produceAll_contains {items : List ProduceItem}
    (h : (q.produceAll items).1.topics.contains τ = true) :
    q.topics.contains τ = true ∨ ∃ item ∈ items, item.topic = τ := by
  by_cases hnamed : τ ∈ items.map (·.topic)
  · exact Or.inr (List.mem_map.mp hnamed)
  · rw [OrdMap.contains_iff, produceAll_other hnamed] at h
    exact Or.inl (OrdMap.contains_iff.mpr h)

end Queue

/-- A topic that is there after a request was there before it, or has a
name that passed the check. -/
theorem apply_topic_name {q : Queue} {req : AppRequest} {τ : TopicId}
    (h : (q.apply req).1.topics.contains τ = true) :
    q.topics.contains τ = true ∨ τ.utf8ByteSize ≤ maxNameBytes := by
  cases req with
  | createTopic σ | setRateLimit σ rate burst | setRetention σ cap age =>
      simp only [Queue.apply] at h
      split at h
      · exact Or.inl h
      · rename_i hok
        refine (Queue.putTopic_contains h).imp_right ?_
        rintro rfl
        exact (Queue.checkTopic_ok_iff.mp hok).1
  | produce σ priority contentType payload producerId seq ts =>
      simp only [Queue.apply] at h
      split at h
      · exact Or.inl h
      · rename_i hok
        refine (Queue.putTopic_contains h).imp_right ?_
        rintro rfl
        exact ((Queue.checkProduce_ok_iff.mp hok).1 _ (List.mem_singleton.mpr rfl)).1
  | produceMany items =>
      simp only [Queue.apply] at h
      split at h
      · exact Or.inl h
      · rename_i hok
        refine (Queue.produceAll_contains h).imp_right ?_
        rintro ⟨item, hitem, rfl⟩
        exact ((Queue.checkProduce_ok_iff.mp hok).1 item hitem).1
  | deleteTopic σ =>
      rw [Queue.apply, OrdMap.contains_iff, OrdMap.get?_erase] at h
      split_ifs at h
      · simp at h
      · exact Or.inl (OrdMap.contains_iff.mpr h)
  | poll σ γ max vis ts | pollAuto σ γ max vis ts | commitOffset σ γ o
  | commitOffsetAt σ γ o ts =>
      simp only [Queue.apply] at h
      split at h
      · exact Or.inl h
      · simpa only [Queue.reclaimTopic, Queue.ack, Queue.commit, Queue.foldl_updateTopic,
          Queue.updateTopic_contains, Queue.poll_contains] using Or.inl h
  | ack σ γ id | ackMany σ γ ids | nack σ γ id | nackMany σ γ ids =>
      simpa only [Queue.apply, Queue.reclaimTopic, Queue.ack, Queue.nack,
        Queue.foldl_updateTopic, Queue.updateTopic_contains] using Or.inl h

/-- The names of the topics, and of their groups, are within the limit. -/
def Queue.NamesOk (q : Queue) : Prop :=
  (∀ τ, q.topics.contains τ = true → τ.utf8ByteSize ≤ maxNameBytes) ∧
  q.Topics fun t => ∀ γ g, t.groups.get? γ = some g → γ.utf8ByteSize ≤ maxNameBytes

/-- The groups a request opens are those of a consumer request that passed
the check of its names. -/
theorem openGroup_name {q : Queue} {req : AppRequest} (hok : ¬(q.apply req).2.Rejected)
    {τ : TopicId} {γ : GroupId} {now : Option Nat}
    (hallow : TopicOp.AllowedBy req τ (.openGroup γ now)) : γ.utf8ByteSize ≤ maxNameBytes := by
  have hclock : req.consumerClock? τ γ = some now := by
    rcases hallow with ⟨d, ts, hpoll, rfl⟩ | ⟨off, hcommit⟩
    · exact AppRequest.consumerClock?_of_pollOf? hpoll
    · exact AppRequest.consumerClock?_of_commitOf? hcommit
  by_contra hlong
  refine hok ((consumer_rejected_iff hclock q).mpr fun hcheck => ?_)
  exact hlong (checkConsumer_ok_iff.mp hcheck).2

theorem Queue.NamesOk.apply {q : Queue} (h : q.NamesOk) (req : AppRequest) :
    (q.apply req).1.NamesOk := by
  by_cases hrej : (q.apply req).2.Rejected
  · rwa [apply_rejected hrej]
  · refine ⟨fun τ hτ => (apply_topic_name hτ).elim (h.1 τ) id, ?_⟩
    refine (apply_steps q req).topicsAt_of_allowed (fun _ γ g hg => by cases hg)
      (fun _ _ _ ht => ht) (fun τ t n op ht hpre hallow γ g hg => ?_) h.2
    rcases TopicOp.group_of_run hpre hg with ⟨g₀, hg₀, -⟩ | ⟨-, now, rfl, -⟩
    · exact ht γ g₀ hg₀
    · exact openGroup_name hrej hallow

theorem run_namesOk (reqs : List AppRequest) : (({} : Queue).run reqs).NamesOk := by
  refine List.foldlRecOn (motive := Queue.NamesOk) reqs _ ⟨?_, ?_⟩ fun q hq req _ => hq.apply req
  · intro τ hτ
    cases hτ
  · intro τ t ht
    cases ht

/-! ## The dedup window -/

theorem run_dedup_limits (reqs : List AppRequest) {τ : TopicId} {t : TopicState}
    (ht : (({} : Queue).run reqs).topics.get? τ = some t) :
    t.dedup.size ≤ dedupCapacity ∧
      ∀ key o, t.dedup.get? key = some o → (ofLex key).1.utf8ByteSize ≤ maxProducerIdBytes := by
  have hlog := (dedupLogged_invariant τ).run_topic reqs ht
  have hitems := (itemsOk_invariant τ).run_topic reqs ht
  obtain ⟨dropped, kept, hwindow⟩ := hlog.window
  have horder : ∀ key o, t.dedup.get? key = some o → key ∈ t.dedupOrder := by
    intro key o hkey
    exact (hwindow.ok.mem_iff key).mpr (OrdMap.contains_iff.mpr ⟨o, hkey⟩)
  constructor
  · rw [← OrdMap.length_keys]
    refine (List.subperm_of_subset t.dedup.keys_nodup fun key hkey => ?_).length_le.trans
      hlog.order_le
    obtain ⟨o, ho⟩ := OrdMap.mem_keys.mp hkey
    exact horder key o ho
  · intro key o hkey
    have hmem := horder key o hkey
    rw [hwindow.order_eq] at hmem
    obtain ⟨x, hx, rfl⟩ := List.mem_map.mp hmem
    have hkeyed : x ∈ keyedAppends (topicLog τ reqs) :=
      hwindow.split ▸ List.mem_append_right _ hx
    exact (hitems x (List.mem_of_mem_filter hkeyed)).2.2

/-- Every reachable state is within the limits: of topics and their names,
of groups and their names, of dedup keys and their producer ids. A group
has no more acked offsets than the topic retains messages, and no more
leases, but for one a saturated topic may leave it without a message. What
is refused changes nothing. -/
theorem state_within_limits (reqs : List AppRequest) :
    (({} : Queue).run reqs).topics.size ≤ maxTopics ∧
    (∀ τ t, (({} : Queue).run reqs).topics.get? τ = some t →
      τ.utf8ByteSize ≤ maxNameBytes ∧ t.groups.size ≤ maxGroupsPerTopic ∧
      t.dedup.size ≤ dedupCapacity ∧
      (∀ key o, t.dedup.get? key = some o → (ofLex key).1.utf8ByteSize ≤ maxProducerIdBytes) ∧
      ∀ γ g, t.groups.get? γ = some g → γ.utf8ByteSize ≤ maxNameBytes ∧
        g.ackedAbove.card ≤ t.messages.size ∧
        (g.inFlight.size ≤ t.messages.size ∨
          (t.nextOffset = u64Max ∧ t.messages.size = 0 ∧ g.inFlight.size = 1))) ∧
    ∀ req, ((({} : Queue).run reqs).apply req).2.Rejected →
      ((({} : Queue).run reqs).apply req).1 = ({} : Queue).run reqs := by
  refine ⟨Queue.run_size_le (Nat.zero_le _) reqs, fun τ t ht => ?_, fun req => apply_rejected⟩
  have hnames := run_namesOk reqs
  have hheld := run_held reqs τ t ht
  obtain ⟨hdedup, hproducers⟩ := run_dedup_limits reqs ht
  refine ⟨hnames.1 τ (OrdMap.contains_iff.mpr ⟨t, ht⟩), hheld.size_le, hdedup, hproducers, ?_⟩
  intro γ g hg
  exact ⟨hnames.2 τ t ht γ g hg, hheld.acked_card_le hg, hheld.leases_size_le hg⟩

/-- A small queue: its topic, its group and a refused request. -/
theorem state_within_limits_polled :
    ∃ t g, (({} : Queue).run rebornTopic).topics.get? "t" = some t ∧
      t.groups.get? "g" = some g ∧ g.inFlight.size ≤ t.messages.size ∧
      ((({} : Queue).run rebornTopic).apply (.poll "t" (longName 257) 1 1000 5)).1 =
        ({} : Queue).run rebornTopic := by
  obtain ⟨-, htopics, hrejected⟩ := state_within_limits rebornTopic
  obtain ⟨t, ht⟩ := Option.isSome_iff_exists.mp
    (show ((({} : Queue).run rebornTopic).topics.get? "t").isSome by decide)
  have hstate : ((({} : Queue).run rebornTopic).topics.get? "t").all (fun t =>
      (t.groups.get? "g").isSome && t.messages.size = 1) = true := by decide
  rw [ht, Option.all_some, Bool.and_eq_true, decide_eq_true_eq] at hstate
  obtain ⟨g, hg⟩ := Option.isSome_iff_exists.mp hstate.1
  have hlong : checkConsumer "t" (longName 257) ≠ .ok () := by
    intro hok
    have hle := (checkConsumer_ok_iff.mp hok).2
    rw [longName_size] at hle
    exact absurd hle (by decide)
  have hclock : (AppRequest.poll "t" (longName 257) 1 1000 5).consumerClock? "t" (longName 257) =
      some (some 5) := by simp only [AppRequest.consumerClock?, and_self, if_true]
  refine ⟨t, g, ht, hg, ?_, hrejected _ ((consumer_rejected_iff hclock _).mpr hlong)⟩
  refine ((htopics "t" t ht).2.2.2.2 "g" g hg).2.2.resolve_right fun hlost => ?_
  rw [hlost.2.1] at hstate
  cases hstate.2

/-- Fill the topic's offsets, lease the message at the last one, and have
retention drop that message when its producer sends it again. -/
def leaseOutlivesMessage : List AppRequest :=
  fillOffsets ++ [.setRetention "t" 0 10, .produce "t" .default .raw [] "p" 1 1,
    .poll "t" "g" 1 100000 2, .produce "t" .default .raw [] "p" 1 1000]

theorem lease_without_message :
    ∃ t g, (({} : Queue).run leaseOutlivesMessage).topics.get? "t" = some t ∧
      t.groups.get? "g" = some g ∧ t.messages.size < g.inFlight.size := by
  have hrun : ((({} : Queue).run leaseOutlivesMessage).topics.get? "t").any (fun t =>
      (t.groups.get? "g").any fun g => t.messages.size < g.inFlight.size) = true := by
    rw [leaseOutlivesMessage, Queue.run_append, fillOffsets_run]
    decide
  rw [Option.any_eq_true] at hrun
  obtain ⟨t, ht, hany⟩ := hrun
  rw [Option.any_eq_true] at hany
  obtain ⟨g, hg, hlt⟩ := hany
  exact ⟨t, g, ht, hg, of_decide_eq_true hlt⟩

end HermesMq
