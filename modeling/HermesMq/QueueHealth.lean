import HermesMq.DoneSet
import HermesMq.QueueValidate

/-!
# Validity is kept

`validate`'s checks are closed under every request once one relation it
does not check is added: no leased offset is already acked
(`LeasedUnacked`). With it, the watermark can only be absorbed up to the
first leased offset, never past it; without it one commit breaks a check.

`TopicSound` is validity with that relation. It is kept by every step as
long as neither counter has run out of `u64` (`TopicHealthy`), so a queue
the node built itself is always valid up to its counters, and so is
whatever an accepted snapshot turns into - provided the snapshot had the
relation.
-/

namespace HermesMq

/-- No leased offset is acked already. -/
def GroupState.LeasedUnacked (g : GroupState) : Prop :=
  ∀ o d, g.leasedOffsets.get? o = some d → o ∉ g.ackedAbove

structure GroupSound (n : LeaseId) (next : Offset) (g : GroupState) : Prop
    extends GroupValid n next g where
  unacked : g.LeasedUnacked

/-! ## Groups -/

namespace GroupSound

variable {n n' : LeaseId} {next next' : Offset} {g g' : GroupState}

theorem mono (h : GroupSound n next g) (hn : n ≤ n') (hnext : next ≤ next') :
    GroupSound n' next' g where
  watermark_le := h.watermark_le.trans hnext
  acked_lt o ho := (h.acked_lt o ho).trans_le hnext
  acked_gt := h.acked_gt
  lease_lt hl := ⟨(h.lease_lt hl).1.trans_le hn, (h.lease_lt hl).2.trans_le hnext⟩
  agree := h.agree
  backed := h.backed
  leased_ge := h.leased_ge
  unacked := h.unacked

/-- Soundness is about the done set and the lease maps only. -/
theorem congr (h : GroupSound n next g) (hw : g'.ackWatermark = g.ackWatermark)
    (ha : g'.ackedAbove = g.ackedAbove) (hi : g'.inFlight = g.inFlight)
    (hl : g'.leasedOffsets = g.leasedOffsets) : GroupSound n next g' where
  watermark_le := hw ▸ h.watermark_le
  acked_lt := ha ▸ h.acked_lt
  acked_gt := by rw [hw, ha]; exact h.acked_gt
  lease_lt hl' := h.lease_lt (hi ▸ hl')
  agree := h.agree.of_maps hi hl
  backed := GroupState.LeasesBacked.of_maps h.backed hi hl
  leased_ge hd := hw ▸ h.leased_ge (hl ▸ hd)
  unacked := by
    unfold GroupState.LeasedUnacked
    rw [ha, hl]
    exact h.unacked

theorem fresh (hw : g.ackWatermark ≤ next) (ha : g.ackedAbove = ∅) (hi : g.inFlight = ∅)
    (hl : g.leasedOffsets = ∅) : GroupSound n next g where
  watermark_le := hw
  acked_lt o ho := by simp [ha] at ho
  acked_gt o ho := by simp [ha] at ho
  lease_lt h := by simp [hi] at h
  agree := ⟨fun h => by simp [hi] at h, fun h => by simp [hi] at h⟩
  backed o d h := by simp [hl] at h
  leased_ge h := by simp [hl] at h
  unacked o d h := by simp [hl] at h

theorem removeLease (h : GroupSound n next g) (id : LeaseId) :
    GroupSound n next (g.removeLease id) := by
  have hs := GroupState.sameButLeases_removeLease g id
  have hsub : ∀ {o d}, (g.removeLease id).leasedOffsets.get? o = some d →
      g.leasedOffsets.get? o = some d := fun {o d} hd => by
    rw [GroupState.removeLease_leasedOffsets] at hd
    split_ifs at hd
    exact hd
  constructor
  · constructor
    · exact hs.ackWatermark ▸ h.watermark_le
    · exact hs.ackedAbove ▸ h.acked_lt
    · rw [hs.ackWatermark, hs.ackedAbove]
      exact h.acked_gt
    · intro i l hl
      rw [GroupState.removeLease_inFlight] at hl
      split_ifs at hl
      exact h.lease_lt hl
    · exact h.agree.removeLease id
    · exact GroupState.LeasesBacked.removeLease h.backed id
    · intro o d hd
      exact hs.ackWatermark ▸ h.leased_ge (hsub hd)
  · intro o d hd
    exact hs.ackedAbove ▸ h.unacked o d (hsub hd)

theorem dropLeases (h : GroupSound n next g) (p : Lease → Bool) :
    GroupSound n next (g.dropLeases p) :=
  List.foldlRecOn (motive := GroupSound n next) _ _ h fun _ hb id _ => hb.removeLease id

theorem takeLease (h : GroupSound n next g) {messages : OrdMap Offset Message} {o : Offset}
    (d : Nat) (hdel : Deliverable messages g o) (ho : o < next) :
    GroupSound (n + 1) next (g.takeLease n o d) where
  watermark_le := h.watermark_le
  acked_lt := h.acked_lt
  acked_gt := h.acked_gt
  lease_lt {id l} hl := by
    rw [GroupState.takeLease, OrdMap.get?_insert] at hl
    split_ifs at hl with hid
    · obtain rfl := Option.some.inj hl
      exact ⟨hid ▸ Nat.lt_succ_self _, ho⟩
    · exact ⟨Nat.lt_succ_of_lt (h.lease_lt hl).1, (h.lease_lt hl).2⟩
  agree := h.agree.takeLease d hdel.unleased
  backed := by
    refine GroupState.LeasesBacked.takeLease h.backed o d ?_
    cases hid : g.inFlight.get? n with
    | none => rfl
    | some l => exact absurd (h.lease_lt hid).1 (lt_irrefl n)
  leased_ge {o' d'} hd := by
    rw [GroupState.takeLease, OrdMap.get?_insert] at hd
    split_ifs at hd with heq
    · exact heq ▸ hdel.above
    · exact h.leased_ge hd
  unacked o' d' hd := by
    rw [GroupState.takeLease, OrdMap.get?_insert] at hd
    split_ifs at hd with heq
    · exact heq ▸ hdel.unacked
    · exact h.unacked o' d' hd

theorem canonical (h : GroupSound n next g) : g.Canonical next where
  leased_ge := h.leased_ge
  unacked hd := h.unacked _ _ hd
  agree := h.agree
  backed := h.backed
  done_lt := Watermark.denote_subset_Iio.mpr ⟨h.watermark_le, h.acked_lt⟩
  leased_lt hd := by
    obtain ⟨id, hid⟩ := h.backed _ _ hd
    exact (h.lease_lt hid).2
  acked_gt := h.acked_gt

/-- Soundness is the invariant of the done set and a bound on lease ids. -/
theorem of_canonical (h : g.Canonical next)
    (hids : ∀ id l, g.inFlight.get? id = some l → id < n) : GroupSound n next g where
  watermark_le := (Watermark.denote_subset_Iio.mp h.done_lt).1
  acked_lt := (Watermark.denote_subset_Iio.mp h.done_lt).2
  acked_gt := h.acked_gt
  lease_lt hl := ⟨hids _ _ hl, h.leased_lt (h.agree.leased hl)⟩
  agree := h.agree
  backed := h.backed
  leased_ge := h.leased_ge
  unacked _ _ hd := h.unacked hd

theorem markAcked (h : GroupSound n next g) {a : Offset} (ha : a < next)
    (hfree : g.leasedOffsets.get? a = none) : GroupSound n next (g.markAcked a) := by
  refine of_canonical (h.canonical.markAcked ha hfree) fun id l hl => ?_
  rw [GroupState.markAcked_inFlight] at hl
  exact (h.lease_lt hl).1

theorem ackLease (h : GroupSound n next g) (id : LeaseId) :
    GroupSound n next (g.ackLease id) := by
  unfold GroupState.ackLease
  split
  · exact h
  · rename_i l hl
    refine (h.removeLease id).markAcked (h.lease_lt hl).2 ?_
    rw [GroupState.removeLease_leasedOffsets, if_pos (by simp [hl])]

theorem advanceWatermark (h : GroupSound n next g) {upto : Offset} (hupto : upto ≤ next) :
    GroupSound n next (g.advanceWatermark upto) := by
  refine of_canonical (h.canonical.advanceWatermark hupto) fun id l hl => ?_
  rw [GroupState.advanceWatermark_inFlight, Option.filter_eq_some_iff] at hl
  exact (h.lease_lt hl.1).1

end GroupSound

/-! ## Deduplication -/

/-- The queue of keys lists the keys of the map, each once. -/
structure DedupOk (order : List DedupKey) (dedup : OrdMap DedupKey Offset) : Prop where
  nodup : order.Nodup
  mem_iff : ∀ key, key ∈ order ↔ dedup.contains key = true

namespace DedupOk

variable {order : List DedupKey} {dedup : OrdMap DedupKey Offset} {key : DedupKey}

theorem contains_erase {k : DedupKey} :
    (dedup.erase key).contains k = true ↔ k ≠ key ∧ dedup.contains k = true := by
  rw [OrdMap.contains_iff, OrdMap.contains_iff, OrdMap.get?_erase]
  by_cases h : k = key <;> simp [h]

/-- Popping the oldest key and erasing it. -/
theorem pop (h : DedupOk (key :: order) dedup) : DedupOk order (dedup.erase key) := by
  obtain ⟨hnot, hnd⟩ := List.nodup_cons.mp h.nodup
  refine ⟨hnd, fun k => ?_⟩
  rw [contains_erase, ← h.mem_iff, List.mem_cons]
  constructor
  · intro hk
    exact ⟨fun heq => hnot (heq ▸ hk), Or.inr hk⟩
  · rintro ⟨hne, hk | hk⟩
    · exact absurd hk hne
    · exact hk

theorem push (h : DedupOk order dedup) (hnew : dedup.get? key = none) (o : Offset) :
    DedupOk (order ++ [key]) (dedup.insert key o) := by
  have hfresh : key ∉ order := fun hk => by
    rw [h.mem_iff, OrdMap.contains_iff, hnew] at hk
    obtain ⟨v, hv⟩ := hk
    cases hv
  refine ⟨List.nodup_append.mpr ⟨h.nodup, List.nodup_singleton _, ?_⟩, fun k => ?_⟩
  · rintro a ha b hb rfl
    exact hfresh (List.mem_singleton.mp hb ▸ ha)
  · rw [List.mem_append, List.mem_singleton, h.mem_iff, OrdMap.contains_iff,
      OrdMap.contains_iff, OrdMap.get?_insert]
    by_cases hk : k = key <;> simp [hk]

theorem evict : ∀ {order : List DedupKey} {dedup : OrdMap DedupKey Offset},
    DedupOk order dedup →
    DedupOk (evictDedup order dedup).1 (evictDedup order dedup).2 ∧
      (evictDedup order dedup).1.length ≤ dedupCapacity := by
  intro order
  induction order with
  | nil => exact fun h => ⟨h, Nat.zero_le _⟩
  | cons key rest ih =>
      intro dedup h
      rw [evictDedup]
      split_ifs with hlong
      · exact ih h.pop
      · exact ⟨h, not_lt.mp hlong⟩

theorem prune {boundary : Offset} :
    ∀ {order : List DedupKey} {dedup : OrdMap DedupKey Offset}, DedupOk order dedup →
    DedupOk (pruneDedupLoop boundary order dedup).1 (pruneDedupLoop boundary order dedup).2 ∧
      (pruneDedupLoop boundary order dedup).1.length ≤ order.length := by
  intro order
  induction order with
  | nil => exact fun h => ⟨h, le_rfl⟩
  | cons key rest ih =>
      intro dedup h
      rw [pruneDedupLoop]
      split_ifs
      · exact ⟨(ih h.pop).1, (ih h.pop).2.trans (Nat.le_succ _)⟩
      · exact ⟨h, le_rfl⟩

end DedupOk

/-! ## Topics -/

/-- A valid topic in which no leased offset is acked. -/
structure TopicSound (n : LeaseId) (t : TopicState) : Prop where
  message_offset : ∀ {o m}, t.messages.get? o = some m → m.offset = o
  keys_lt : ∀ {o m}, t.messages.get? o = some m → o < t.nextOffset
  dedup : DedupOk t.dedupOrder t.dedup
  order_le : t.dedupOrder.length ≤ dedupCapacity
  groups : ∀ {γ g}, t.groups.get? γ = some g → GroupSound n t.nextOffset g

theorem TopicSound.valid {n : LeaseId} {t : TopicState} (h : TopicSound n t) :
    TopicValid n t where
  message_offset := h.message_offset
  keys_lt := h.keys_lt
  order_nodup := h.dedup.nodup
  order_iff := h.dedup.mem_iff
  order_le := h.order_le
  groups hg := (h.groups hg).toGroupValid

theorem TopicValid.sound {n : LeaseId} {t : TopicState} (h : TopicValid n t)
    (hunacked : ∀ {γ g}, t.groups.get? γ = some g → g.LeasedUnacked) : TopicSound n t where
  message_offset := h.message_offset
  keys_lt := h.keys_lt
  dedup := ⟨h.order_nodup, h.order_iff⟩
  order_le := h.order_le
  groups hg := ⟨h.groups hg, hunacked hg⟩

theorem TopicSound.mono {n n' : LeaseId} {t : TopicState} (h : TopicSound n t)
    (hn : n ≤ n') : TopicSound n' t where
  message_offset := h.message_offset
  keys_lt := h.keys_lt
  dedup := h.dedup
  order_le := h.order_le
  groups hg := (h.groups hg).mono hn le_rfl

theorem TopicSound.first_le {n : LeaseId} {t : TopicState} (h : TopicSound n t) :
    t.first ≤ t.nextOffset := by
  rcases first_cases t with ⟨m, hm⟩ | ⟨heq, -⟩
  · exact (h.keys_lt hm).le
  · exact heq.le

/-- A step's messages, appends apart, were there before. -/
theorem TopicOp.run_sub {op : TopicOp} (hop : ∀ item, op ≠ .append item) (t : TopicState) :
    (op.run t).nextOffset = t.nextOffset ∧
      ∀ {o m}, (op.run t).messages.get? o = some m → t.messages.get? o = some m := by
  cases op with
  | append item => exact absurd rfl (hop item)
  | purge now =>
      exact ⟨purgeRetained_nextOffset .., fun hm => ((purgeRetained_cut t now).sub hm).1⟩
  | sweep now =>
      obtain ⟨b, hcut, -⟩ := sweepAndReclaim_cut t now
      exact ⟨sweepAndReclaim_nextOffset .., fun hm => (hcut.sub hm).1⟩
  | reclaim =>
      obtain ⟨b, hcut, -⟩ := reclaim_cut t
      exact ⟨reclaim_nextOffset t, fun hm => (hcut.sub hm).1⟩
  | openGroup group now | configure rate burst cap age => exact ⟨rfl, fun hm => hm⟩
  | beginPoll group ts | lease group id o d | commit group upto now =>
      exact ⟨updateGroup_nextOffset .., fun hm => by rwa [TopicOp.run, updateGroup_messages] at hm⟩
  | ack group id =>
      exact ⟨updateGroup_nextOffset .., fun hm => by
        rwa [TopicOp.run, ackTopic, updateGroup_messages] at hm⟩
  | nack group id =>
      exact ⟨updateGroup_nextOffset .., fun hm => by
        rwa [TopicOp.run, nackTopic, updateGroup_messages] at hm⟩

theorem updateGroup_dedup (t : TopicState) (group : GroupId) (f : GroupState → GroupState) :
    (updateGroup t group f).dedupOrder = t.dedupOrder ∧
      (updateGroup t group f).dedup = t.dedup := by
  unfold updateGroup
  split <;> exact ⟨rfl, rfl⟩

theorem reclaim_dedup (t : TopicState) :
    (reclaim t).dedupOrder = t.dedupOrder ∧ (reclaim t).dedup = t.dedup := by
  have hgc : ∀ t, (gcIdleGroups t).dedupOrder = t.dedupOrder ∧
      (gcIdleGroups t).dedup = t.dedup := fun t => by
    unfold gcIdleGroups
    split <;> exact ⟨rfl, rfl⟩
  have hmessages : (reclaimMessages t).dedupOrder = t.dedupOrder ∧
      (reclaimMessages t).dedup = t.dedup := by
    unfold reclaimMessages
    split
    · exact ⟨rfl, rfl⟩
    · split <;> exact ⟨rfl, rfl⟩
  exact ⟨(hgc _).1.trans hmessages.1, (hgc _).2.trans hmessages.2⟩

theorem sweepAndReclaim_dedup (t : TopicState) (now : Nat) :
    (sweepAndReclaim t now).dedupOrder = t.dedupOrder ∧
      (sweepAndReclaim t now).dedup = t.dedup := by
  simp only [sweepAndReclaim]
  split
  · exact reclaim_dedup _
  · exact ⟨rfl, rfl⟩

/-- Only appends and purges touch the dedup map and its queue. -/
theorem TopicOp.run_dedup_eq {op : TopicOp} (happend : ∀ item, op ≠ .append item)
    (hpurge : ∀ now, op ≠ .purge now) (t : TopicState) :
    (op.run t).dedupOrder = t.dedupOrder ∧ (op.run t).dedup = t.dedup := by
  cases op with
  | append item => exact absurd rfl (happend item)
  | purge now => exact absurd rfl (hpurge now)
  | sweep now => exact sweepAndReclaim_dedup t now
  | reclaim => exact reclaim_dedup t
  | openGroup group now | configure rate burst cap age => exact ⟨rfl, rfl⟩
  | beginPoll group ts | lease group id o d | commit group upto now => exact updateGroup_dedup ..
  | ack group id | nack group id => exact updateGroup_dedup ..

/-- A step keeps the dedup map and its queue in step. -/
theorem TopicOp.run_dedup {t : TopicState} {n : LeaseId} {op : TopicOp} (hpre : op.Pre t n)
    (h : DedupOk t.dedupOrder t.dedup) (hle : t.dedupOrder.length ≤ dedupCapacity) :
    DedupOk (op.run t).dedupOrder (op.run t).dedup ∧
      (op.run t).dedupOrder.length ≤ dedupCapacity := by
  have hsame : (∀ item, op ≠ .append item) → (∀ now, op ≠ .purge now) →
      DedupOk (op.run t).dedupOrder (op.run t).dedup ∧
        (op.run t).dedupOrder.length ≤ dedupCapacity := fun happend hpurge => by
    obtain ⟨horder, hdedup⟩ := TopicOp.run_dedup_eq happend hpurge t
    rw [horder, hdedup]
    exact ⟨h, hle⟩
  cases op with
  | append item =>
      simp only [TopicOp.run, appendMessage]
      split_ifs with hp
      · exact (h.push (hpre hp) _).evict
      · exact ⟨h, hle⟩
  | purge now =>
      simp only [TopicOp.run, purgeRetained]
      split_ifs
      · exact ⟨h, hle⟩
      · exact ⟨h.prune.1, h.prune.2.trans hle⟩
  | _ => exact hsame (by rintro _ ⟨⟩) (by rintro _ ⟨⟩)

theorem TopicSound.purgeBoundary_le {n : LeaseId} {t : TopicState} (h : TopicSound n t)
    (now : Nat) : purgeBoundary t now ≤ t.nextOffset := by
  rcases first_cases (purgeRetained t now) with ⟨m, hm⟩ | ⟨heq, -⟩
  · exact (h.keys_lt ((purgeRetained_cut t now).sub hm).1).le
  · rw [purgeBoundary, heq, purgeRetained_nextOffset]

theorem TopicOp.nextLease_ge {n : LeaseId} (op : TopicOp) (hn : n < u64Max) :
    n ≤ op.nextLease n := by
  cases op with
  | lease => exact le_satAdd hn.le 1
  | _ => exact le_rfl

/-- A step's effect on a group keeps it sound. -/
theorem TopicSound.groupRun {n : LeaseId} {t : TopicState} (h : TopicSound n t)
    {op : TopicOp} (hpre : op.Pre t n) (hn : n < u64Max) {γ : GroupId} {g : GroupState}
    (hg : t.groups.get? γ = some g) :
    GroupSound (op.nextLease n) t.nextOffset (op.groupRun t γ g) := by
  have hsound := h.groups hg
  have hle := op.nextLease_ge hn
  have hstep := op.groupStep t γ g
  generalize op.groupRun t γ g = g' at hstep ⊢
  cases hstep with
  | same => exact hsound.mono hle le_rfl
  | purge now => exact hsound.advanceWatermark (h.purgeBoundary_le now)
  | sweep now =>
      exact hsound.congr (GroupState.stamp_ackWatermark g now) (GroupState.stamp_ackedAbove g now)
        (GroupState.stamp_inFlight g now) (GroupState.stamp_leasedOffsets g now)
  | beginPoll ts => exact (hsound.dropLeases fun l => l.deadlineMs ≤ ts).congr rfl rfl rfl rfl
  | lease id o d =>
      have hdel := hpre.deliverable hg
      obtain ⟨m, hm⟩ := hdel.retained
      obtain rfl : id = n := hpre.1
      rw [TopicOp.nextLease, satAdd_one_of_lt hn]
      exact hsound.takeLease d hdel (h.keys_lt hm)
  | ack id => exact hsound.ackLease id
  | nack id => exact hsound.removeLease id
  | commit upto now =>
      exact (hsound.advanceWatermark hpre).congr (GroupState.touch_ackWatermark ..)
        (GroupState.touch_ackedAbove ..) (GroupState.touch_inFlight ..)
        (GroupState.touch_leasedOffsets ..)

theorem freshGroup_sound {n : LeaseId} {t : TopicState} (h : TopicSound n t)
    (now : Option Nat) : GroupSound n t.nextOffset (freshGroup t now) :=
  GroupSound.fresh h.first_le rfl rfl rfl

/-- A step keeps a topic sound until a counter runs out. -/
theorem TopicSound.run {n : LeaseId} {t : TopicState} (h : TopicSound n t) {op : TopicOp}
    (hpre : op.Pre t n) (hn : n < u64Max) (hnext : t.nextOffset < u64Max) :
    TopicSound (op.nextLease n) (op.run t) := by
  obtain ⟨hdedup, horder⟩ := TopicOp.run_dedup hpre h.dedup h.order_le
  by_cases hop : ∀ item, op ≠ .append item
  · obtain ⟨heq, hsub⟩ := TopicOp.run_sub hop t
    refine ⟨fun hm => h.message_offset (hsub hm), fun hm => heq ▸ h.keys_lt (hsub hm), hdedup,
      horder, fun {γ g'} hg' => ?_⟩
    rw [heq]
    rcases TopicOp.group_of_run hpre hg' with ⟨g, hg, rfl⟩ | ⟨-, now, rfl, rfl⟩
    · exact h.groupRun hpre hn hg
    · exact freshGroup_sound h now
  · obtain ⟨item, rfl⟩ := not_forall_not.mp hop
    have hget : ∀ {o m}, (appendMessage t item).messages.get? o = some m →
        m.offset = o ∧ o < t.nextOffset + 1 := fun {o m} hm => by
      rw [appendMessage_messages, OrdMap.get?_insert] at hm
      split_ifs at hm with ho
      · obtain rfl := Option.some.inj hm
        exact ⟨ho.symm, ho ▸ Nat.lt_succ_self _⟩
      · exact ⟨h.message_offset hm, Nat.lt_succ_of_lt (h.keys_lt hm)⟩
    refine ⟨fun hm => (hget hm).1, fun hm => ?_, hdedup, horder, fun {γ g} hg => ?_⟩
    · rw [TopicOp.run, appendMessage_nextOffset, satAdd_one_of_lt hnext]
      exact (hget hm).2
    · rw [TopicOp.run, appendMessage_groups] at hg
      rw [TopicOp.run, appendMessage_nextOffset, satAdd_one_of_lt hnext]
      exact (h.groups hg).mono le_rfl (Nat.le_succ _)

/-! ## Queues -/

/-- Sound as long as neither counter has run out of `u64`. -/
def TopicHealthy (n : LeaseId) (t : TopicState) : Prop :=
  n < u64Max → t.nextOffset < u64Max → TopicSound n t

theorem lt_max_of_satAdd {a b : Nat} (h : satAdd a b < u64Max) : a < u64Max := by
  unfold satAdd at h
  omega

theorem TopicOp.le_nextLease {n : LeaseId} (op : TopicOp) (h : op.nextLease n < u64Max) :
    n < u64Max ∧ n ≤ op.nextLease n := by
  have hlt : n < u64Max := by
    cases op with
    | lease group id o d => exact lt_max_of_satAdd h
    | _ => exact h
  exact ⟨hlt, op.nextLease_ge hlt⟩

theorem TopicOp.nextOffset_lt_of_run {t : TopicState} {op : TopicOp}
    (h : (op.run t).nextOffset < u64Max) : t.nextOffset < u64Max := by
  by_cases hop : ∀ item, op ≠ .append item
  · rwa [(TopicOp.run_sub hop t).1] at h
  · obtain ⟨item, rfl⟩ := not_forall_not.mp hop
    rw [TopicOp.run, appendMessage_nextOffset] at h
    exact lt_max_of_satAdd h

theorem topicSound_empty (n : LeaseId) : TopicSound n {} where
  message_offset h := by cases h
  keys_lt h := by cases h
  dedup := ⟨List.nodup_nil, fun key => ⟨nofun, nofun⟩⟩
  order_le := Nat.zero_le _
  groups h := by cases h

theorem TopicHealthy.counter {n : LeaseId} {t : TopicState} (h : TopicHealthy n t)
    (op : TopicOp) : TopicHealthy (op.nextLease n) t := fun hn hnext =>
  have hle := op.le_nextLease hn
  (h hle.1 hnext).mono hle.2

theorem TopicHealthy.run {n : LeaseId} {t : TopicState} (h : TopicHealthy n t) {op : TopicOp}
    (hpre : op.Pre t n) : TopicHealthy (op.nextLease n) (op.run t) := fun hn hnext =>
  have hn' := (op.le_nextLease hn).1
  have hnext' := TopicOp.nextOffset_lt_of_run hnext
  (h hn' hnext').run hpre hn' hnext'

theorem run_healthy {q : Queue} (hq : q.TopicsAt TopicHealthy) (reqs : List AppRequest) :
    (q.run reqs).TopicsAt TopicHealthy :=
  hq.run (fun n _ _ => topicSound_empty n) (fun _ op _ h => h.counter op)
    (fun _ _ _ h hpre => h.run hpre) reqs

/-- A healthy queue with its counters in bounds passes `validate`. -/
theorem validate_of_healthy {q : Queue} (hq : q.TopicsAt TopicHealthy) (hb : q.Bounded) :
    q.validate = .ok () := by
  have hmax : maxCounter < u64Max := by decide
  refine validate_ok_iff.mpr ⟨hb, fun τ t ht => ?_⟩
  exact (hq τ t ht (hb.lease.trans_lt hmax) ((hb.offset ht).trans_lt hmax)).valid

/-! ## Accepted snapshots -/

/-- No group of the queue has a leased offset that is acked. -/
def Queue.LeasedUnacked (q : Queue) : Prop :=
  ∀ τ t γ g, q.topics.get? τ = some t → t.groups.get? γ = some g → g.LeasedUnacked

theorem Queue.leasedUnacked_iff {q : Queue} :
    q.LeasedUnacked ↔ ∀ e ∈ q.topics.entries, ∀ e' ∈ e.2.groups.entries,
      ∀ x ∈ e'.2.leasedOffsets.entries, x.1 ∉ e'.2.ackedAbove := by
  constructor
  · rintro h ⟨τ, t⟩ ht ⟨γ, g⟩ hg ⟨o, d⟩ hd
    exact h τ t γ g (OrdMap.get?_eq_some.mpr ht) (OrdMap.get?_eq_some.mpr hg) o d
      (OrdMap.get?_eq_some.mpr hd)
  · intro h τ t γ g ht hg o d hd
    exact h _ (OrdMap.get?_eq_some.mp ht) _ (OrdMap.get?_eq_some.mp hg) _
      (OrdMap.get?_eq_some.mp hd)

instance (q : Queue) : Decidable q.LeasedUnacked := decidable_of_iff _ Queue.leasedUnacked_iff.symm

theorem lt_absorb_of_mem {n : Nat} {w : Offset} {s : Finset Offset} (hn : s.card ≤ n)
    (hw : w < u64Max) (hmem : w ∈ s) : w < (absorb n w s).1 := by
  cases n with
  | zero =>
      rw [Nat.le_zero, Finset.card_eq_zero] at hn
      simp [hn] at hmem
  | succ n =>
      rw [absorb, if_pos hmem, satAdd_one_of_lt hw]
      exact le_absorb hw n _

/-- Advancing a group to a leased offset that is acked moves the
watermark past the lease. -/
theorem advanceWatermark_past_lease {n : LeaseId} {next : Offset} {g : GroupState}
    (h : GroupValid n next g) (hnext : next < u64Max) {o : Offset} {d : Nat}
    (hleased : g.leasedOffsets.get? o = some d) (hacked : o ∈ g.ackedAbove) :
    (g.advanceWatermark o).leasedOffsets.get? o = some d ∧
      o < (g.advanceWatermark o).ackWatermark ∧ (g.advanceWatermark o).inFlight.size ≠ 0 := by
  have hgt := h.acked_gt o hacked
  have hmax : max g.ackWatermark o = o := max_eq_right hgt.le
  have hs := GroupState.sameButLeases_dropLeases (g.raise o) fun l => l.offset < o
  obtain ⟨id, hid⟩ := h.backed o d hleased
  rw [GroupState.advanceWatermark_eq, hmax]
  refine ⟨?_, ?_, fun hsize => ?_⟩
  · rw [GroupState.absorbAcked_leasedOffsets, GroupState.dropLeases_leasedOffsets_of_kept]
    · exact hleased
    · rintro i l - rfl
      exact decide_eq_false (lt_irrefl _)
  · refine hs.ackWatermark.symm.trans_lt (lt_absorb_of_mem le_rfl ?_ ?_)
    · rw [hs.ackWatermark]
      exact (h.acked_lt o hacked).trans hnext
    · rw [hs.ackWatermark, hs.ackedAbove]
      exact Finset.mem_filter.mpr ⟨hacked, le_rfl⟩
  · have hkept : ((g.raise o).dropLeases fun l => l.offset < o).inFlight.get? id =
        some ⟨o, d⟩ := by
      rw [GroupState.dropLeases_inFlight, Option.filter_eq_some_iff]
      exact ⟨hid, by simp⟩
    rw [GroupState.absorbAcked_inFlight, OrdMap.size_eq_zero] at hsize
    rw [hsize] at hkept
    cases hkept

theorem reclaim_keeps {t : TopicState} {γ : GroupId} {g : GroupState}
    (hg : t.groups.get? γ = some g) (hsize : g.inFlight.size ≠ 0) :
    (reclaim t).groups.get? γ = some g := by
  rw [reclaim, gcIdleGroups]
  split
  · rwa [reclaimMessages_groups]
  · rw [OrdMap.get?_filter, reclaimMessages_groups, hg, Option.filter_some, if_pos]
    simp [hsize]

/-- A commit at a leased, acked offset of an existing group. -/
theorem commitOffset_topics {q : Queue} {τ : TopicId} {t : TopicState} {γ : GroupId}
    {g : GroupState} {o : Offset} (hok : checkConsumer τ γ = .ok ())
    (ht : q.topics.get? τ = some t) (hg : t.groups.get? γ = some g) (ho : o ≤ t.nextOffset)
    (σ : TopicId) : (q.apply (.commitOffset τ γ o)).1.topics.get? σ =
      if σ = τ then some (reclaim (putGroup t γ (g.advanceWatermark o)))
      else q.topics.get? σ := by
  have hcommit : commitTopic t γ o none = putGroup t γ (g.advanceWatermark o) := by
    simp [commitTopic, groupEntry, OrdMap.contains, hg, min_eq_left ho, GroupState.touch]
  simp only [Queue.apply, hok, Queue.commit, Queue.reclaimTopic, Queue.updateTopic_topics,
    Option.map_map]
  by_cases hσ : σ = τ
  · subst hσ
    simp [ht, hcommit]
  · simp [hσ, Function.comp_def]

theorem commitOffset_bounded {q : Queue} (hb : q.Bounded) {τ : TopicId} {t : TopicState}
    {γ : GroupId} {g : GroupState} {o : Offset} (hok : checkConsumer τ γ = .ok ())
    (ht : q.topics.get? τ = some t) (hg : t.groups.get? γ = some g) (ho : o ≤ t.nextOffset) :
    (q.apply (.commitOffset τ γ o)).1.Bounded := by
  have htopics := commitOffset_topics hok ht hg ho
  refine ⟨?_, fun {σ t'} ht' => ?_, fun {σ t' γ' g'} ht' hg' => ?_⟩
  · simp only [Queue.apply, hok, Queue.commit, Queue.reclaimTopic, Queue.updateTopic_of_some ht]
    rw [Queue.updateTopic_of_some (OrdMap.get?_insert_self ..)]
    exact hb.lease
  · rw [htopics] at ht'
    split_ifs at ht'
    · obtain rfl := Option.some.inj ht'
      rw [reclaim_nextOffset]
      exact (hb.offset ht : t.nextOffset ≤ maxCounter)
    · exact hb.offset ht'
  · rw [htopics] at ht'
    split_ifs at ht'
    · obtain rfl := Option.some.inj ht'
      have hput := reclaim_sub hg'
      rw [putGroup_groups] at hput
      split_ifs at hput
      · obtain rfl := Option.some.inj hput
        rw [GroupState.advanceWatermark_pollCount]
        exact hb.polls ht hg
      · exact hb.polls ht hput
    · exact hb.polls ht' hg'

/-- What becomes of an accepted snapshot. If no group of it has a leased
offset that is acked, it stays acceptable through every run that keeps
the counters in bounds; and if one has, one commit by that group makes it
a state the decoder refuses. -/
theorem accepted_stays_valid {q : Queue} (hq : q.normalize.validate = .ok ()) :
    (q.normalize.LeasedUnacked → ∀ reqs, (q.normalize.run reqs).Bounded →
      (q.normalize.run reqs).validate = .ok ()) ∧
    (∀ τ t γ g o d, q.normalize.topics.get? τ = some t → t.groups.get? γ = some g →
      g.leasedOffsets.get? o = some d → o ∈ g.ackedAbove → checkConsumer τ γ = .ok () →
      (q.normalize.apply (.commitOffset τ γ o)).1.Bounded ∧
        (q.normalize.apply (.commitOffset τ γ o)).1.validate ≠ .ok ()) := by
  obtain ⟨hb, hvalid⟩ := validate_ok_iff.mp hq
  constructor
  · intro hunacked reqs hbound
    refine validate_of_healthy (run_healthy (fun τ t ht _ _ => ?_) reqs) hbound
    exact (hvalid τ t ht).sound fun {γ g} hg => hunacked τ t γ g ht hg
  · intro τ t γ g o d ht hg hleased hacked hok
    have hgroup := (hvalid τ t ht).groups hg
    have hlt := hgroup.acked_lt o hacked
    have hnext : t.nextOffset < u64Max := (hb.offset ht).trans_lt (by decide)
    refine ⟨commitOffset_bounded hb hok ht hg hlt.le, fun hafter => ?_⟩
    obtain ⟨hstill, hpast, hsize⟩ := advanceWatermark_past_lease hgroup hnext hleased hacked
    have htopic := (commitOffset_topics hok ht hg hlt.le τ).trans (if_pos rfl)
    have hput : (putGroup t γ (g.advanceWatermark o)).groups.get? γ =
        some (g.advanceWatermark o) := OrdMap.get?_insert_self ..
    have hvalid' := (validate_ok_iff.mp hafter).2 τ _ htopic
    exact absurd ((hvalid'.groups (reclaim_keeps hput hsize)).leased_ge hstill)
      (not_le.mpr hpast)

/-- A snapshot with one group that holds leases on both of its messages
stays acceptable: here through the ack of both. -/
theorem accepted_stays_valid_leased :
    let q : Queue :=
      { topics := .ofList [("t",
          { nextOffset := 2
            messages := .ofList [(0, ⟨0, 0, .raw, [], 1⟩), (1, ⟨1, 0, .raw, [], 1⟩)]
            groups := .ofList [("g",
              { inFlight := .ofList [(0, ⟨0, 100⟩), (1, ⟨1, 100⟩)]
                leasedOffsets := .ofList [(0, 100), (1, 100)]
                pollCount := 1
                lastActiveMs := 1 })] })]
        nextLeaseId := 2 }
    q.normalize.LeasedUnacked ∧
      (q.normalize.run [.ackMany "t" "g" [1, 0]]).validate = .ok () := by
  intro q
  have haccepted : q.normalize.validate = .ok () := rfl
  have hunacked : q.normalize.LeasedUnacked := by decide
  have hbound : (q.normalize.run [.ackMany "t" "g" [1, 0]]).Bounded :=
    (validate_ok_iff.mp rfl).1
  exact ⟨hunacked, (accepted_stays_valid haccepted).1 hunacked _ hbound⟩

/-- The same snapshot, where the group has acked the second message
already. -/
def leasedAckedSnapshot : Queue :=
  { topics := .ofList [("t",
      { nextOffset := 2
        messages := .ofList [(0, ⟨0, .default, .raw, [], 1⟩), (1, ⟨1, .default, .raw, [], 1⟩)]
        groups := .ofList [("g",
          { ackedAbove := {1}
            inFlight := .ofList [(0, ⟨0, 100⟩), (1, ⟨1, 100⟩)]
            leasedOffsets := .ofList [(0, 100), (1, 100)]
            pollCount := 1
            lastActiveMs := 1 })] })]
    nextLeaseId := 2 }

/-- The decoder accepts it, and acking the first lease turns it into a
state the decoder refuses. -/
theorem accepted_then_refused :
    leasedAckedSnapshot.normalize.validate = .ok () ∧
      (leasedAckedSnapshot.normalize.apply (.ack "t" "g" 0)).1.validate =
        .error "topic t group g: lease at 1 is below watermark 2" := by
  constructor <;> rfl

end HermesMq
