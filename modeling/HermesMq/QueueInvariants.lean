import HermesMq.QueueSteps

/-!
# Invariants of every reachable queue

`TopicOp.groupRun` reads the group-level effect off a primitive step, and
`group_of_run` / `group_run` say that a step does nothing else to a
group: every group after a step is a group before it with that effect, or
one the step opened; and only the idle sweep removes one.

`TopicShape` is the invariant of a reachable topic: the retained offsets
are exactly an interval ending at `nextOffset`, every watermark lies in
it, the lease maps agree, and there are never more groups than the limit.
-/

namespace HermesMq

/-! ## What a step does to a group -/

/-- The effect of a step on group `γ` of topic `t`. -/
def TopicOp.groupRun (t : TopicState) (γ : GroupId) (g : GroupState) : TopicOp → GroupState
  | .purge now =>
      if purgeSet t now ≠ ∅ ∧ purgeBoundary t now > g.ackWatermark then
        g.advanceWatermark (purgeBoundary t now)
      else g
  | .sweep now => g.stamp now
  | .beginPoll group ts => if γ = group then g.beginPoll ts else g
  | .lease group id o d => if γ = group then g.takeLease id o d else g
  | .ack group id => if γ = group then g.ackLease id else g
  | .nack group id => if γ = group then g.removeLease id else g
  | .commit group upto now =>
      if γ = group then (g.advanceWatermark upto).touch now else g
  | _ => g

/-- What a step can do to group `γ` of topic `t`. -/
inductive GroupStep (t : TopicState) (γ : GroupId) (g : GroupState) : TopicOp → GroupState → Prop
  | same {op : TopicOp} : GroupStep t γ g op g
  | purge (now : Nat) : GroupStep t γ g (.purge now) (g.advanceWatermark (purgeBoundary t now))
  | sweep (now : Nat) : GroupStep t γ g (.sweep now) (g.stamp now)
  | beginPoll (ts : Nat) : GroupStep t γ g (.beginPoll γ ts) (g.beginPoll ts)
  | lease (id : LeaseId) (o : Offset) (d : Nat) :
      GroupStep t γ g (.lease γ id o d) (g.takeLease id o d)
  | ack (id : LeaseId) : GroupStep t γ g (.ack γ id) (g.ackLease id)
  | nack (id : LeaseId) : GroupStep t γ g (.nack γ id) (g.removeLease id)
  | commit (upto : Offset) (now : Option Nat) :
      GroupStep t γ g (.commit γ upto now) ((g.advanceWatermark upto).touch now)

theorem TopicOp.groupStep (t : TopicState) (γ : GroupId) (g : GroupState) (op : TopicOp) :
    GroupStep t γ g op (op.groupRun t γ g) := by
  -- a step on one group is no step on another
  have hif : ∀ {op : TopicOp} {group : GroupId} {g' : GroupState},
      (γ = group → GroupStep t γ g op g') → GroupStep t γ g op (if γ = group then g' else g) := by
    intro op group g' h
    split_ifs with hγ
    · exact h hγ
    · exact .same
  cases op with
  | append | reclaim | openGroup | configure => exact .same
  | purge now =>
      rw [TopicOp.groupRun]
      split_ifs
      · exact .purge now
      · exact .same
  | sweep now => exact .sweep now
  | beginPoll group ts => exact hif fun hγ => hγ ▸ .beginPoll ts
  | lease group id o d => exact hif fun hγ => hγ ▸ .lease id o d
  | ack group id => exact hif fun hγ => hγ ▸ .ack id
  | nack group id => exact hif fun hγ => hγ ▸ .nack id
  | commit group upto now => exact hif fun hγ => hγ ▸ .commit upto now

theorem TopicOp.Pre.deliverable {t : TopicState} {n id : LeaseId} {γ : GroupId} {o : Offset}
    {d : Nat} (h : (TopicOp.lease γ id o d).Pre t n) {g : GroupState}
    (hg : t.groups.get? γ = some g) : Deliverable t.messages g o := by
  obtain ⟨-, g', hg', hdel⟩ := h
  exact Option.some.inj (hg'.symm.trans hg) ▸ hdel

theorem appendMessage_groups (t : TopicState) (item : ProduceItem) :
    (appendMessage t item).groups = t.groups := by
  unfold appendMessage
  simp only
  split <;> rfl

@[simp] theorem appendMessage_nextOffset (t : TopicState) (item : ProduceItem) :
    (appendMessage t item).nextOffset = satAdd t.nextOffset 1 := by
  unfold appendMessage
  simp only
  split <;> rfl

theorem appendMessage_messages (t : TopicState) (item : ProduceItem) :
    (appendMessage t item).messages = t.messages.insert t.nextOffset
      ⟨t.nextOffset, item.priority, item.contentType, item.payload, item.tsMs⟩ := by
  unfold appendMessage
  simp only
  split <;> rfl

theorem purgeRetained_group (t : TopicState) (now : Nat) (γ : GroupId) :
    (purgeRetained t now).groups.get? γ =
      (t.groups.get? γ).map fun g => TopicOp.groupRun t γ g (.purge now) := by
  by_cases h : purgeSet t now = ∅
  · rw [purgeRetained_of_empty h]
    simp [TopicOp.groupRun, h]
  · rw [purgeRetained_groups h, OrdMap.get?_mapVals]
    simp [TopicOp.groupRun, h]

/-- A group after a step was there before it, or the step opened it. -/
theorem TopicOp.group_of_run {t : TopicState} {n : LeaseId} {op : TopicOp}
    (hpre : op.Pre t n) {γ : GroupId} {g' : GroupState}
    (h : (op.run t).groups.get? γ = some g') :
    (∃ g, t.groups.get? γ = some g ∧ g' = op.groupRun t γ g) ∨
      (t.groups.get? γ = none ∧ ∃ now, op = .openGroup γ now ∧ g' = freshGroup t now) := by
  have hmap : ∀ f : GroupState → GroupState, (t.groups.get? γ).map f = some g' →
      ∃ g, t.groups.get? γ = some g ∧ g' = f g := fun f hf => by
    obtain ⟨g, hg, rfl⟩ := Option.map_eq_some_iff.mp hf
    exact ⟨g, hg, rfl⟩
  cases op with
  | append item => exact Or.inl ⟨g', by rwa [TopicOp.run, appendMessage_groups] at h, rfl⟩
  | purge now =>
      rw [TopicOp.run, purgeRetained_group] at h
      exact Or.inl (hmap _ h)
  | sweep now =>
      obtain ⟨g, hg, hstamp, -⟩ := sweepAndReclaim_sub h
      exact Or.inl ⟨g, hg, hstamp⟩
  | reclaim => exact Or.inl ⟨g', reclaim_sub h, rfl⟩
  | openGroup group now =>
      rw [TopicOp.run, putGroup_groups] at h
      split_ifs at h with hγ
      · subst hγ
        exact Or.inr ⟨hpre.1, now, rfl, (Option.some.inj h).symm⟩
      · exact Or.inl ⟨g', h, rfl⟩
  | beginPoll group ts | lease group id o d | commit group upto now =>
      rw [TopicOp.run, updateGroup_group] at h
      exact Or.inl (hmap _ h)
  | ack group id =>
      rw [TopicOp.run, ackTopic, updateGroup_group] at h
      exact Or.inl (hmap _ h)
  | nack group id =>
      rw [TopicOp.run, nackTopic, updateGroup_group] at h
      exact Or.inl (hmap _ h)
  | configure rate burst cap age => exact Or.inl ⟨g', h, rfl⟩

/-- A group survives a step, with the step's effect, unless the step is a
sweep that finds it idle. -/
theorem TopicOp.group_run {t : TopicState} {n : LeaseId} {op : TopicOp}
    (hpre : op.Pre t n) (hsize : t.groups.size ≤ groupGcThreshold) {γ : GroupId}
    {g : GroupState} (hg : t.groups.get? γ = some g) :
    (op.run t).groups.get? γ = some (op.groupRun t γ g) ∨
      (∃ now, op = .sweep now ∧ keptBySweep now (g.stamp now) = false ∧
        (op.run t).groups.get? γ = none) := by
  cases op with
  | append item => exact Or.inl (by rw [TopicOp.run, appendMessage_groups, hg]; rfl)
  | purge now => exact Or.inl (by rw [TopicOp.run, purgeRetained_group, hg]; rfl)
  | sweep now =>
      rw [TopicOp.run, sweepAndReclaim_groups_of_small now hsize, hg, Option.map_some,
        Option.filter_some]
      cases hk : keptBySweep now (g.stamp now) with
      | true => exact Or.inl rfl
      | false => exact Or.inr ⟨now, rfl, hk, rfl⟩
  | reclaim => exact Or.inl (by rw [TopicOp.run, reclaim_groups_of_small hsize, hg]; rfl)
  | openGroup group now =>
      refine Or.inl ?_
      rw [TopicOp.run, putGroup_groups, if_neg, hg]
      · rfl
      · rintro rfl
        rw [hpre.1] at hg
        cases hg
  | beginPoll group ts | lease group id o d | commit group upto now =>
      exact Or.inl (by rw [TopicOp.run, updateGroup_group, hg]; rfl)
  | ack group id =>
      exact Or.inl (by rw [TopicOp.run, ackTopic, updateGroup_group, hg]; rfl)
  | nack group id =>
      exact Or.inl (by rw [TopicOp.run, nackTopic, updateGroup_group, hg]; rfl)
  | configure rate burst cap age => exact Or.inl hg

@[simp] theorem updateGroup_size (t : TopicState) (group : GroupId)
    (f : GroupState → GroupState) :
    (updateGroup t group f).groups.size = t.groups.size := by
  unfold updateGroup
  split
  · rfl
  · rename_i g hg
    rw [putGroup, OrdMap.size_insert, if_pos (by simp [OrdMap.contains, hg])]

theorem reclaim_size_le (t : TopicState) : (reclaim t).groups.size ≤ t.groups.size := by
  rw [reclaim, gcIdleGroups]
  split
  · rw [reclaimMessages_groups]
  · refine (OrdMap.size_filter_le ..).trans ?_
    rw [reclaimMessages_groups]

/-- Only opening a group adds one. -/
theorem TopicOp.run_size_le {t : TopicState} {n : LeaseId} {op : TopicOp}
    (hpre : op.Pre t n) (h : t.groups.size ≤ maxGroupsPerTopic) :
    (op.run t).groups.size ≤ maxGroupsPerTopic := by
  cases op with
  | append item => rwa [TopicOp.run, appendMessage_groups]
  | purge now =>
      by_cases hp : purgeSet t now = ∅
      · rwa [TopicOp.run, purgeRetained_of_empty hp]
      · rwa [TopicOp.run, purgeRetained_groups hp, OrdMap.size_mapVals]
  | sweep now =>
      refine le_trans ?_ ((sweepIdleGroups_size_le t now).trans h)
      simp only [TopicOp.run, sweepAndReclaim]
      split
      · exact reclaim_size_le _
      · exact le_rfl
  | reclaim => exact (reclaim_size_le t).trans h
  | openGroup group now =>
      rw [TopicOp.run, putGroup, OrdMap.size_insert]
      split
      · exact h
      · exact hpre.2
  | beginPoll group ts | lease group id o d | commit group upto now =>
      rwa [TopicOp.run, updateGroup_size]
  | ack group id => rwa [TopicOp.run, ackTopic, updateGroup_size]
  | nack group id => rwa [TopicOp.run, nackTopic, updateGroup_size]
  | configure rate burst cap age => exact h

/-! ## The shape of a topic -/

structure TopicShape (t : TopicState) : Prop where
  nextOffset_le : t.nextOffset ≤ u64Max
  keys_le : ∀ {o m}, t.messages.get? o = some m → o ≤ t.nextOffset
  dense : ∀ o, t.first ≤ o → o < t.nextOffset → ∃ m, t.messages.get? o = some m
  watermark : ∀ {γ g}, t.groups.get? γ = some g →
    t.first ≤ g.ackWatermark ∧ g.ackWatermark ≤ u64Max
  leases : ∀ {γ g}, t.groups.get? γ = some g → g.LeasesAgree
  size_le : t.groups.size ≤ maxGroupsPerTopic

theorem TopicShape.empty : TopicShape {} where
  nextOffset_le := Nat.zero_le _
  keys_le h := by cases h
  dense o _ h := absurd h (Nat.not_lt_zero o)
  watermark h := by cases h
  leases h := by cases h
  size_le := Nat.zero_le _

namespace TopicShape

variable {t t' : TopicState}

theorem first_le (h : TopicShape t) : t.first ≤ t.nextOffset := by
  rcases first_cases t with ⟨m, hm⟩ | ⟨heq, -⟩
  · exact h.keys_le hm
  · exact heq.le

theorem size_le_threshold (h : TopicShape t) : t.groups.size ≤ groupGcThreshold :=
  h.size_le.trans (by decide)

/-- Cutting the log keeps the first offset at or below anything that was
ahead of both the old first offset and the cut. -/
theorem first_le_of_cut (h : TopicShape t) (hn : t'.nextOffset = t.nextOffset)
    {b : Offset} (hcut : Cut t.nextOffset b t.messages t'.messages) {w : Offset}
    (hw : t.first ≤ w) (hb : b ≤ w) : t'.first ≤ w := by
  rcases lt_or_ge w t.nextOffset with hlt | hge
  · obtain ⟨m, hm⟩ := h.dense w hw hlt
    exact first_le_of_get (hcut.keep hm hb hlt)
  · rcases first_cases t' with ⟨m, hm⟩ | ⟨heq, -⟩
    · exact (h.keys_le (hcut.sub hm).1).trans hge
    · rw [heq, hn]
      exact hge

theorem dense_of_cut (h : TopicShape t) (hn : t'.nextOffset = t.nextOffset)
    {b : Offset} (hcut : Cut t.nextOffset b t.messages t'.messages) (o : Offset)
    (hlo : t'.first ≤ o) (hhi : o < t'.nextOffset) : ∃ m, t'.messages.get? o = some m := by
  rcases first_cases t' with ⟨m, hm⟩ | ⟨heq, -⟩
  · obtain ⟨hm', hb⟩ := hcut.sub hm
    rw [hn] at hhi
    obtain ⟨m', hm''⟩ := h.dense o ((first_le_of_get hm').trans hlo) hhi
    exact ⟨m', hcut.keep hm'' (hb.trans hlo) hhi⟩
  · rw [← heq] at hhi
    exact absurd hlo (not_le.mpr hhi)

/-- A cut of the log with the groups' watermarks at or above it. -/
theorem of_cut (h : TopicShape t) (hn : t'.nextOffset = t.nextOffset) {b : Offset}
    (hcut : Cut t.nextOffset b t.messages t'.messages)
    (hgroups : ∀ γ g', t'.groups.get? γ = some g' → t.first ≤ g'.ackWatermark ∧
      b ≤ g'.ackWatermark ∧ g'.ackWatermark ≤ u64Max ∧ g'.LeasesAgree)
    (hsize : t'.groups.size ≤ maxGroupsPerTopic) : TopicShape t' where
  nextOffset_le := hn ▸ h.nextOffset_le
  keys_le hm := hn ▸ h.keys_le (hcut.sub hm).1
  dense := h.dense_of_cut hn hcut
  watermark hg := by
    obtain ⟨hfirst, hb, hmax, -⟩ := hgroups _ _ hg
    exact ⟨h.first_le_of_cut hn hcut hfirst hb, hmax⟩
  leases hg := (hgroups _ _ hg).2.2.2
  size_le := hsize

theorem purgeBoundary_le (h : TopicShape t) (now : Nat) :
    purgeBoundary t now ≤ t.nextOffset := by
  have hcut := purgeRetained_cut t now
  rcases first_cases (purgeRetained t now) with ⟨m, hm⟩ | ⟨heq, -⟩
  · exact h.keys_le (hcut.sub hm).1
  · rw [purgeBoundary, heq, purgeRetained_nextOffset]

/-- A step never lowers a watermark, and never takes it out of `u64`. -/
theorem groupRun_watermark (h : TopicShape t) {n : LeaseId} {op : TopicOp}
    (hpre : op.Pre t n) {γ : GroupId} {g : GroupState} (hg : t.groups.get? γ = some g) :
    g.ackWatermark ≤ (op.groupRun t γ g).ackWatermark ∧
      (op.groupRun t γ g).ackWatermark ≤ u64Max := by
  have hmax := (h.watermark hg).2
  have hsame : g.ackWatermark ≤ g.ackWatermark ∧ g.ackWatermark ≤ u64Max := ⟨le_rfl, hmax⟩
  have hadv : ∀ upto ≤ t.nextOffset, g.ackWatermark ≤ (g.advanceWatermark upto).ackWatermark ∧
      (g.advanceWatermark upto).ackWatermark ≤ u64Max := fun upto hle =>
    have hb := GroupState.advanceWatermark_watermark hmax (hle.trans h.nextOffset_le)
    ⟨(le_max_left ..).trans hb.1, hb.2⟩
  have hstep := op.groupStep t γ g
  generalize op.groupRun t γ g = g' at hstep ⊢
  cases hstep with
  | same => exact hsame
  | purge now => exact hadv _ (h.purgeBoundary_le now)
  | sweep now => simpa using hmax
  | beginPoll ts => simpa using hmax
  | lease id o d => exact hsame
  | ack id => exact GroupState.ackLease_watermark hmax id
  | nack id => simpa using hmax
  | commit upto now => simpa using hadv upto hpre

end TopicShape

/-- A step keeps the two lease maps in agreement. -/
theorem TopicOp.groupRun_leases {t : TopicState} {n : LeaseId} {op : TopicOp}
    (hpre : op.Pre t n) {γ : GroupId} {g : GroupState} (hg : t.groups.get? γ = some g)
    (h : g.LeasesAgree) : (op.groupRun t γ g).LeasesAgree := by
  have hstep := op.groupStep t γ g
  generalize op.groupRun t γ g = g' at hstep ⊢
  cases hstep with
  | same => exact h
  | purge now => exact h.advanceWatermark _
  | sweep now => exact h.of_maps (by simp) (by simp)
  | beginPoll ts => exact (h.dropLeases _).of_maps rfl rfl
  | lease id o d => exact h.takeLease d (hpre.deliverable hg).unleased
  | ack id => exact h.ackLease id
  | nack id => exact h.removeLease id
  | commit upto now => exact (h.advanceWatermark upto).of_maps (by simp) (by simp)

/-- The idle sweep keeps a group within the idle span of its activity. -/
theorem keptBySweep_of_active {g : GroupState} {c now : Nat} (hact : c ≤ g.lastActiveMs)
    (hnow : now ≤ c + groupIdleExpireMs) : keptBySweep now (g.stamp now) = true := by
  have hstamp := hact.trans (g.le_stamp_lastActiveMs now)
  have hidle : now - (g.stamp now).lastActiveMs ≤ groupIdleExpireMs := by omega
  simp [keptBySweep, hidle]

/-- The activity clock never goes back. -/
theorem TopicOp.le_groupRun_lastActiveMs (t : TopicState) (γ : GroupId) (g : GroupState)
    (op : TopicOp) : g.lastActiveMs ≤ (op.groupRun t γ g).lastActiveMs := by
  have hstep := op.groupStep t γ g
  generalize op.groupRun t γ g = g' at hstep ⊢
  cases hstep with
  | same => exact le_rfl
  | purge now => rw [GroupState.advanceWatermark_lastActiveMs]
  | sweep now => exact g.le_stamp_lastActiveMs now
  | beginPoll ts =>
      rw [GroupState.beginPoll_lastActiveMs]
      exact le_max_left ..
  | lease id o d => exact le_rfl
  | ack id => rw [GroupState.ackLease_lastActiveMs]
  | nack id => rw [(GroupState.sameButLeases_removeLease g id).lastActiveMs]
  | commit upto now =>
      rw [← g.advanceWatermark_lastActiveMs upto]
      exact GroupState.le_touch_lastActiveMs ..

theorem Cut.refl (next : Offset) (messages : OrdMap Offset Message) :
    Cut next 0 messages messages :=
  ⟨fun h => ⟨h, Nat.zero_le _⟩, fun h _ _ => h⟩

/-- Every step but an append cuts the log at or below every watermark it
leaves, possibly at 0. -/
theorem TopicOp.run_cut {t : TopicState} (h : TopicShape t) {n : LeaseId} {op : TopicOp}
    (hpre : op.Pre t n) (hop : ∀ item, op ≠ .append item) :
    (op.run t).nextOffset = t.nextOffset ∧
      ∃ b, Cut t.nextOffset b t.messages (op.run t).messages ∧
        ∀ γ g', (op.run t).groups.get? γ = some g' → b ≤ g'.ackWatermark := by
  have hrefl : ∀ t' : TopicState, t'.messages = t.messages →
      ∃ b, Cut t.nextOffset b t.messages t'.messages ∧
        ∀ γ g', t'.groups.get? γ = some g' → b ≤ g'.ackWatermark := fun t' ht' =>
    ⟨0, ht' ▸ Cut.refl .., fun _ _ _ => Nat.zero_le _⟩
  cases op with
  | append item => exact absurd rfl (hop item)
  | purge now =>
      refine ⟨purgeRetained_nextOffset .., _, purgeRetained_cut t now, fun γ g' hg' => ?_⟩
      rw [TopicOp.run, purgeRetained_group] at hg'
      obtain ⟨g, hg, rfl⟩ := Option.map_eq_some_iff.mp hg'
      simp only [TopicOp.groupRun]
      split_ifs with hb
      · exact (le_max_right ..).trans (GroupState.advanceWatermark_watermark (h.watermark hg).2
          ((h.purgeBoundary_le now).trans h.nextOffset_le)).1
      · by_cases hp : purgeSet t now = ∅
        · rw [purgeBoundary, purgeRetained_of_empty hp]
          exact (h.watermark hg).1
        · exact not_lt.mp fun hlt => hb ⟨hp, hlt⟩
  | sweep now => exact ⟨sweepAndReclaim_nextOffset .., sweepAndReclaim_cut t now⟩
  | reclaim =>
      obtain ⟨b, hcut, hb⟩ := reclaim_cut t
      exact ⟨reclaim_nextOffset t, b, hcut, fun γ g' hg' => hb γ g' (reclaim_sub hg')⟩
  | openGroup group now | configure rate burst cap age => exact ⟨rfl, hrefl _ rfl⟩
  | beginPoll group ts | lease group id o d | commit group upto now =>
      exact ⟨updateGroup_nextOffset .., hrefl _ (updateGroup_messages ..)⟩
  | ack group id | nack group id =>
      exact ⟨updateGroup_nextOffset .., hrefl _ (updateGroup_messages ..)⟩

theorem appendMessage_first (t : TopicState) (item : ProduceItem) (h : TopicShape t) :
    (appendMessage t item).first = t.first := by
  have hget : ∀ o, (appendMessage t item).messages.get? o =
      if o = t.nextOffset then some _ else t.messages.get? o := fun o => by
    rw [appendMessage_messages, OrdMap.get?_insert]
  have hnew : (appendMessage t item).first ≤ t.nextOffset :=
    first_le_of_get ((hget _).trans (if_pos rfl))
  refine le_antisymm ?_ ?_
  · rcases first_cases t with ⟨m, hm⟩ | ⟨heq, -⟩
    · by_cases hn : t.first = t.nextOffset
      · exact hn ▸ hnew
      · exact first_le_of_get (((hget _).trans (if_neg hn)).trans hm)
    · exact heq ▸ hnew
  · rcases first_cases (appendMessage t item) with ⟨m, hm⟩ | ⟨-, hnone⟩
    · rw [hget] at hm
      split_ifs at hm with hn
      · exact hn ▸ h.first_le
      · exact first_le_of_get hm
    · have := (hnone t.nextOffset).symm.trans ((hget _).trans (if_pos rfl))
      cases this

theorem TopicShape.append {t : TopicState} (h : TopicShape t) (item : ProduceItem) :
    TopicShape (appendMessage t item) where
  nextOffset_le := by rw [appendMessage_nextOffset]; exact satAdd_le_max ..
  keys_le {o m} hm := by
    have hle := le_satAdd h.nextOffset_le 1
    rw [appendMessage_messages, OrdMap.get?_insert] at hm
    rw [appendMessage_nextOffset]
    split_ifs at hm with hn
    · exact hn ▸ hle
    · exact (h.keys_le hm).trans hle
  dense o hlo hhi := by
    rw [appendMessage_first t item h] at hlo
    rw [appendMessage_nextOffset] at hhi
    rw [appendMessage_messages, OrdMap.get?_insert]
    split_ifs with hn
    · exact ⟨_, rfl⟩
    · have hle : o ≤ t.nextOffset := Nat.lt_succ_iff.mp (hhi.trans_le (satAdd_le_add ..))
      exact h.dense o hlo (Nat.lt_of_le_of_ne hle hn)
  watermark hg := by
    rw [appendMessage_groups] at hg
    rw [appendMessage_first t item h]
    exact h.watermark hg
  leases hg := by
    rw [appendMessage_groups] at hg
    exact h.leases hg
  size_le := by rw [appendMessage_groups]; exact h.size_le

theorem freshGroup_leases (t : TopicState) (now : Option Nat) :
    (freshGroup t now).LeasesAgree where
  leased h := by cases h
  unique h := by cases h

/-- A step keeps the shape of its topic. -/
theorem TopicShape.run {t : TopicState} (h : TopicShape t) {n : LeaseId} {op : TopicOp}
    (hpre : op.Pre t n) : TopicShape (op.run t) := by
  by_cases hop : ∀ item, op ≠ .append item
  · obtain ⟨hn, b, hcut, hb⟩ := TopicOp.run_cut h hpre hop
    refine h.of_cut hn hcut (fun γ g' hg' => ?_) (TopicOp.run_size_le hpre h.size_le)
    have hbelow := hb γ g' hg'
    rcases TopicOp.group_of_run hpre hg' with ⟨g, hg, rfl⟩ | ⟨-, now, rfl, rfl⟩
    · obtain ⟨hrise, hmax⟩ := h.groupRun_watermark hpre hg
      exact ⟨(h.watermark hg).1.trans hrise, hbelow, hmax,
        TopicOp.groupRun_leases hpre hg (h.leases hg)⟩
    · exact ⟨le_rfl, hbelow, h.first_le.trans h.nextOffset_le, freshGroup_leases t now⟩
  · obtain ⟨item, rfl⟩ := not_forall_not.mp hop
    exact h.append item

/-! ## Reachable queues -/

/-- Every topic of the queue satisfies `I` at the lease counter. -/
def Queue.TopicsAt (I : LeaseId → TopicState → Prop) (q : Queue) : Prop :=
  ∀ τ t, q.topics.get? τ = some t → I q.nextLeaseId t

/-- Every topic of the queue satisfies `I`. -/
abbrev Queue.Topics (I : TopicState → Prop) (q : Queue) : Prop :=
  q.TopicsAt fun _ => I

/-- A property of topics kept by the steps of a request, also by those of
other topics that move the lease counter, is kept by the request. -/
theorem Steps.topicsAt_of_allowed {req : AppRequest} {I : LeaseId → TopicState → Prop}
    (hnew : ∀ n, I n {}) (hcounter : ∀ n op t, I n t → I (TopicOp.nextLease n op) t)
    (hop : ∀ τ t n op, I n t → TopicOp.Pre t n op → op.AllowedBy req τ →
      I (op.nextLease n) (op.run t)) {q q' : Queue} (h : Steps req q q') (hq : q.TopicsAt I) :
    q'.TopicsAt I := by
  refine h.invariant (fun q op hallow hpre hq => ?_) hq
  intro σ t ht
  cases op with
  | create τ =>
      rw [QueueOp.run, Queue.putTopic_topics] at ht
      split_ifs at ht
      · exact Option.some.inj ht ▸ hnew _
      · exact hq σ t ht
  | delete τ =>
      rw [QueueOp.run, OrdMap.get?_erase] at ht
      split_ifs at ht
      exact hq σ t ht
  | topic τ op =>
      obtain ⟨t0, ht0, hpre0⟩ := hpre
      rw [QueueOp.run, Queue.updateTopic_of_some ht0, Queue.putTopic_topics] at ht
      split_ifs at ht
      · exact Option.some.inj ht ▸ hop τ t0 _ op (hq τ t0 ht0) hpre0 hallow
      · exact hcounter _ op t (hq σ t ht)

section Topics

variable {I : LeaseId → TopicState → Prop} (hnew : ∀ n, I n {})
  (hcounter : ∀ n op t, I n t → I (TopicOp.nextLease n op) t)
  (hop : ∀ t n op, I n t → TopicOp.Pre t n op → I (op.nextLease n) (op.run t))

include hnew hcounter hop

/-- A property of topics kept by every primitive step is kept by requests. -/
theorem Steps.topicsAt {req : AppRequest} {q q' : Queue} (h : Steps req q q')
    (hq : q.TopicsAt I) : q'.TopicsAt I :=
  h.topicsAt_of_allowed hnew hcounter (fun _ t n op ht hpre _ => hop t n op ht hpre) hq

theorem Queue.TopicsAt.run {q : Queue} (hq : q.TopicsAt I) (reqs : List AppRequest) :
    (q.run reqs).TopicsAt I := by
  induction reqs generalizing q with
  | nil => exact hq
  | cons req rest ih => exact ih ((apply_steps q req).topicsAt hnew hcounter hop hq)

end Topics

theorem Queue.topicsAt_empty (I : LeaseId → TopicState → Prop) : ({} : Queue).TopicsAt I := by
  intro τ t ht
  cases ht

theorem Steps.shape {req : AppRequest} {q q' : Queue} (h : Steps req q q')
    (hq : q.Topics TopicShape) : q'.Topics TopicShape :=
  h.topicsAt (fun _ => TopicShape.empty) (fun _ _ _ ht => ht) (fun _ _ _ ht hpre => ht.run hpre)
    hq

theorem run_shape (reqs : List AppRequest) : (({} : Queue).run reqs).Topics TopicShape :=
  Queue.TopicsAt.run (fun _ => TopicShape.empty) (fun _ _ _ ht => ht)
    (fun _ _ _ ht hpre => ht.run hpre) (Queue.topicsAt_empty _) reqs

/-- Topic `τ` exists in a well-shaped queue and satisfies `P`. -/
def Queue.TopicHas (τ : TopicId) (P : TopicState → Prop) (q : Queue) : Prop :=
  q.Topics TopicShape ∧ ∃ t, q.topics.get? τ = some t ∧ P t

/-- A property of one topic kept by every primitive step the request takes
on it is kept by the request, unless that deletes the topic. -/
theorem Steps.topicHas {req : AppRequest} {τ : TopicId} {P : TopicState → Prop}
    (hkeep : req ≠ .deleteTopic τ)
    (hop : ∀ t n op, TopicShape t → TopicOp.Pre t n op → op.AllowedBy req τ → P t →
      P (op.run t)) {q q' : Queue} (h : Steps req q q') (hq : q.TopicHas τ P) :
    q'.TopicHas τ P := by
  refine h.invariant (P := fun q => q.TopicHas τ P) (fun q op hallow hpre hq => ?_) hq
  have hone : Steps req q (op.run q) := Relation.ReflTransGen.single ⟨op, hallow, hpre, rfl⟩
  obtain ⟨hshape, t, ht, hP⟩ := hq
  refine ⟨hone.shape hshape, ?_⟩
  cases op with
  | create σ =>
      refine ⟨t, ?_, hP⟩
      rw [QueueOp.run, Queue.putTopic_topics, if_neg, ht]
      rintro rfl
      rw [show q.topics.get? τ = none from hpre] at ht
      cases ht
  | delete σ =>
      refine ⟨t, ?_, hP⟩
      rw [QueueOp.run, OrdMap.get?_erase, if_neg, ht]
      rintro rfl
      exact hkeep hallow
  | topic σ op =>
      obtain ⟨t0, ht0, hpre0⟩ := hpre
      simp only [QueueOp.run, Queue.updateTopic_of_some ht0, Queue.putTopic_topics]
      by_cases hσ : τ = σ
      · subst hσ
        obtain rfl := Option.some.inj (ht.symm.trans ht0)
        exact ⟨_, if_pos rfl, hop t _ op (hshape τ t ht) hpre0 hallow hP⟩
      · exact ⟨t, (if_neg hσ).trans ht, hP⟩

end HermesMq
