import HermesMq.LeaseIds

/-!
# Topics and groups do not interfere

A request changes only the topics it names. A consumer request of one
group leaves the other groups of the topic alone: their cursors and leases
are what they were, the messages ahead of them stay, and only the idle
sweep removes one.

The second half is a property of the primitive steps: none of those a
consumer request of group `h` takes touches another group (`Spared.step`),
and `Steps.topicHas` carries that to the request.
-/

namespace HermesMq

/-! ## Other topics -/

/-- The topics a request names. -/
def AppRequest.topics : AppRequest → List TopicId
  | .createTopic topic => [topic]
  | .deleteTopic topic => [topic]
  | .produce topic .. => [topic]
  | .produceMany items => items.map (·.topic)
  | .poll topic .. => [topic]
  | .pollAuto topic .. => [topic]
  | .ack topic .. => [topic]
  | .ackMany topic .. => [topic]
  | .nackMany topic .. => [topic]
  | .nack topic .. => [topic]
  | .commitOffset topic .. => [topic]
  | .commitOffsetAt topic .. => [topic]
  | .setRateLimit topic .. => [topic]
  | .setRetention topic .. => [topic]

namespace Queue

variable {q : Queue} {τ σ : TopicId}

theorem putTopic_other (h : σ ≠ τ) (t : TopicState) :
    (q.putTopic τ t).topics.get? σ = q.topics.get? σ := by
  rw [putTopic_topics, if_neg h]

theorem updateTopic_other (h : σ ≠ τ) (f : TopicState → TopicState) :
    (q.updateTopic τ f).topics.get? σ = q.topics.get? σ := by
  simp only [updateTopic_topics, if_neg h, Option.map_id']

theorem poll_other (h : σ ≠ τ) (γ : GroupId) (max vis ts : Nat) :
    (q.poll τ γ max vis ts).1.topics.get? σ = q.topics.get? σ := by
  simp only [poll_topics, if_neg h, Option.map_id']

theorem produceAll_other {items : List ProduceItem} {q : Queue}
    (h : σ ∉ items.map (·.topic)) : (q.produceAll items).1.topics.get? σ = q.topics.get? σ := by
  induction items generalizing q with
  | nil => rfl
  | cons item rest ih =>
      rw [List.map_cons, List.mem_cons, not_or] at h
      rw [produceAll, ih h.2]
      exact putTopic_other h.1 _

end Queue

/-- A topic the request does not name is unchanged. -/
theorem apply_other_topic (q : Queue) {req : AppRequest} {σ : TopicId} (h : σ ∉ req.topics) :
    (q.apply req).1.topics.get? σ = q.topics.get? σ := by
  cases req with
  | produceMany items =>
      simp only [Queue.apply]
      split
      · rfl
      · exact Queue.produceAll_other h
  | deleteTopic τ =>
      have hne : σ ≠ τ := fun heq => h (List.mem_singleton.mpr heq)
      simp only [Queue.apply, OrdMap.get?_erase, if_neg hne]
  | pollAuto τ γ max vis ts =>
      have hne : σ ≠ τ := fun heq => h (List.mem_singleton.mpr heq)
      simp only [Queue.apply]
      split
      · rfl
      · simp only [Queue.reclaimTopic, Queue.ack, Queue.foldl_updateTopic,
          Queue.updateTopic_other hne, Queue.poll_other hne]
  | poll τ γ max vis ts =>
      have hne : σ ≠ τ := fun heq => h (List.mem_singleton.mpr heq)
      simp only [Queue.apply]
      split
      · rfl
      · exact Queue.poll_other hne ..
  | createTopic τ | setRateLimit τ rate burst | setRetention τ cap age
  | produce τ priority contentType payload producerId seq ts =>
      have hne : σ ≠ τ := fun heq => h (List.mem_singleton.mpr heq)
      simp only [Queue.apply]
      split
      · rfl
      · exact Queue.putTopic_other hne _
  | commitOffset τ γ o | commitOffsetAt τ γ o ts =>
      have hne : σ ≠ τ := fun heq => h (List.mem_singleton.mpr heq)
      simp only [Queue.apply]
      split
      · rfl
      · simp only [Queue.reclaimTopic, Queue.commit, Queue.updateTopic_other hne]
  | ack τ γ id | ackMany τ γ ids | nack τ γ id | nackMany τ γ ids =>
      have hne : σ ≠ τ := fun heq => h (List.mem_singleton.mpr heq)
      simp only [Queue.apply, Queue.reclaimTopic, Queue.ack, Queue.nack,
        Queue.foldl_updateTopic, Queue.updateTopic_other hne]

/-! ## Other groups of the topic -/

/-- The topic and group a consumer request is for. -/
def AppRequest.consumer? : AppRequest → Option (TopicId × GroupId)
  | .poll topic group .. => some (topic, group)
  | .pollAuto topic group .. => some (topic, group)
  | .ack topic group _ => some (topic, group)
  | .ackMany topic group _ => some (topic, group)
  | .nackMany topic group _ => some (topic, group)
  | .nack topic group _ => some (topic, group)
  | .commitOffset topic group _ => some (topic, group)
  | .commitOffsetAt topic group .. => some (topic, group)
  | _ => none

namespace AppRequest

variable {req : AppRequest} {σ : TopicId} {δ : GroupId}

theorem consumer?_of_pollOf? {p : Nat × Nat} (h : req.pollOf? σ δ = some p) :
    req.consumer? = some (σ, δ) := by
  obtain ⟨max, vis, rfl | rfl, -⟩ := pollOf?_eq_some h
  · rfl
  · rfl

theorem consumer?_of_commitOf? {p : Offset × Option Nat} (h : req.commitOf? σ δ = some p) :
    req.consumer? = some (σ, δ) := by
  cases req with
  | commitOffset topic group offset | commitOffsetAt topic group offset ts =>
      rw [commitOf?] at h
      split_ifs at h with heq
      obtain ⟨rfl, rfl⟩ := heq
      rfl
  | _ => cases h

theorem Acks.consumer? {id : LeaseId} (h : req.Acks σ δ id) : req.consumer? = some (σ, δ) := by
  cases req with
  | ack | ackMany =>
      obtain ⟨rfl, rfl, -⟩ := h
      rfl
  | pollAuto =>
      obtain ⟨rfl, rfl⟩ := h
      rfl
  | _ => cases h

theorem Nacks.consumer? {id : LeaseId} (h : req.Nacks σ δ id) : req.consumer? = some (σ, δ) := by
  cases req with
  | nack | nackMany =>
      obtain ⟨rfl, rfl, -⟩ := h
      rfl
  | _ => cases h

theorem items_of_consumer? {p : TopicId × GroupId} (h : req.consumer? = some p) :
    req.items = [] := by
  cases req with
  | produce | produceMany => cases h
  | _ => rfl

end AppRequest

/-- The group a step is about; sweeps and reclaims are about all. -/
def TopicOp.group? : TopicOp → Option GroupId
  | .openGroup group _ => some group
  | .beginPoll group _ => some group
  | .lease group .. => some group
  | .ack group _ => some group
  | .nack group _ => some group
  | .commit group .. => some group
  | _ => none

section Consumer

variable {req : AppRequest} {τ : TopicId} {h : GroupId}

/-- A consumer request takes steps on its own group, and neither appends
nor purges. -/
theorem TopicOp.AllowedBy.consumer (hreq : req.consumer? = some (τ, h)) {op : TopicOp}
    {σ : TopicId} (hallow : op.AllowedBy req σ) :
    (∀ δ, op.group? = some δ → δ = h) ∧ (∀ item, op ≠ .append item) ∧ ∀ now, op ≠ .purge now := by
  have hown : ∀ {δ}, req.consumer? = some (σ, δ) → δ = h := by
    intro δ hδ
    exact (Prod.mk.inj (Option.some.inj (hδ.symm.trans hreq))).2
  refine ⟨fun δ hδ => ?_, hallow.of_no_items (AppRequest.items_of_consumer? hreq)⟩
  cases op with
  | openGroup group now =>
      cases hδ
      rcases hallow with ⟨d, ts, hpoll, -⟩ | ⟨off, hcommit⟩
      · exact hown (AppRequest.consumer?_of_pollOf? hpoll)
      · exact hown (AppRequest.consumer?_of_commitOf? hcommit)
  | beginPoll group ts =>
      cases hδ
      obtain ⟨d, hpoll⟩ := hallow
      exact hown (AppRequest.consumer?_of_pollOf? hpoll)
  | lease group id o d =>
      cases hδ
      obtain ⟨ts, hpoll⟩ := hallow
      exact hown (AppRequest.consumer?_of_pollOf? hpoll)
  | commit group upto now =>
      cases hδ
      obtain ⟨off, hcommit, -⟩ := hallow
      exact hown (AppRequest.consumer?_of_commitOf? hcommit)
  | ack group id =>
      cases hδ
      exact hown (AppRequest.Acks.consumer? hallow)
  | nack group id =>
      cases hδ
      exact hown (AppRequest.Nacks.consumer? hallow)
  | _ => cases hδ

/-- A sweep takes no message ahead of a group it keeps. -/
theorem sweepAndReclaim_above {t : TopicState} {now : Nat} {γ : GroupId} {g : GroupState}
    (hg : (sweepAndReclaim t now).groups.get? γ = some g) {o : Offset} (ho : g.ackWatermark ≤ o) :
    (sweepAndReclaim t now).messages.get? o = t.messages.get? o := by
  simp only [sweepAndReclaim] at hg ⊢
  split_ifs at hg ⊢
  · exact reclaim_above (reclaim_sub hg) ho
  · rfl

/-- A step on another group, other than a sweep, does not see group `γ`. -/
theorem TopicOp.groupRun_other {t : TopicState} {γ : GroupId} {op : TopicOp}
    (hne : op.group? ≠ some γ) (hpurge : ∀ now, op ≠ .purge now) (g : GroupState) :
    op.groupRun t γ g = g ∨ ∃ now, op = .sweep now ∧ op.groupRun t γ g = g.stamp now := by
  cases op with
  | append | reclaim | openGroup | configure => exact Or.inl rfl
  | purge now => exact absurd rfl (hpurge now)
  | sweep now => exact Or.inr ⟨now, rfl, rfl⟩
  | beginPoll group ts | lease group id o d | ack group id | nack group id
  | commit group upto now =>
      exact Or.inl (if_neg fun heq => hne (congrArg some heq.symm))

/-- The messages ahead of a group, over a step that neither appends nor
purges and keeps the group. -/
theorem TopicOp.messages_above {t : TopicState} {op : TopicOp}
    (happend : ∀ item, op ≠ .append item) (hpurge : ∀ now, op ≠ .purge now) {γ : GroupId}
    {g g' : GroupState} (hg : t.groups.get? γ = some g)
    (hg' : (op.run t).groups.get? γ = some g') {o : Offset} (ho : g.ackWatermark ≤ o) :
    (op.run t).messages.get? o = t.messages.get? o := by
  cases op with
  | append item => exact absurd rfl (happend item)
  | purge now => exact absurd rfl (hpurge now)
  | sweep now =>
      refine sweepAndReclaim_above hg' ?_
      obtain ⟨g₀, hg₀, rfl, -⟩ := sweepAndReclaim_sub hg'
      obtain rfl := Option.some.inj (hg.symm.trans hg₀)
      rwa [GroupState.stamp_ackWatermark]
  | reclaim => exact reclaim_above hg ho
  | openGroup | configure => rfl
  | beginPoll group ts | lease group id o' d | commit group upto now =>
      rw [TopicOp.run, updateGroup_messages]
  | ack group id => rw [TopicOp.run, ackTopic, updateGroup_messages]
  | nack group id => rw [TopicOp.run, nackTopic, updateGroup_messages]

/-- Nothing but the idle sweep of `req` has happened to group `γ`, which was
`g` in topic `t₀`. -/
structure Spared (req : AppRequest) (τ : TopicId) (t₀ : TopicState) (γ : GroupId)
    (g : GroupState) (t : TopicState) : Prop where
  kept : ∀ g', t.groups.get? γ = some g' →
    (g' = g ∨ ∃ now, req.sweepClock? τ = some now ∧ g' = g.stamp now) ∧
    ∀ o, g.ackWatermark ≤ o → t.messages.get? o = t₀.messages.get? o
  gone : t.groups.get? γ = none →
    ∃ now, req.sweepClock? τ = some now ∧ keptBySweep now (g.stamp now) = false

theorem Spared.refl {t : TopicState} {γ : GroupId} {g : GroupState}
    (hg : t.groups.get? γ = some g) : Spared req τ t γ g t where
  kept g' hg' := ⟨Or.inl (Option.some.inj (hg'.symm.trans hg)), fun _ _ => rfl⟩
  gone hnone := by rw [hg] at hnone; cases hnone

/-- A group is stamped once. -/
theorem GroupState.stamp_stamp (g : GroupState) (now : Nat) :
    (g.stamp now).stamp now = g.stamp now := by
  unfold GroupState.stamp
  split_ifs with h h'
  · rfl
  · rfl
  · rfl

theorem Spared.step (hreq : req.consumer? = some (τ, h)) {γ : GroupId} (hγ : γ ≠ h)
    {t₀ t : TopicState} {g : GroupState} {n : LeaseId} {op : TopicOp} (hshape : TopicShape t)
    (hpre : op.Pre t n) (hallow : op.AllowedBy req τ) (hs : Spared req τ t₀ γ g t) :
    Spared req τ t₀ γ g (op.run t) := by
  obtain ⟨hgroup, happend, hpurge⟩ := hallow.consumer hreq
  have hother : op.group? ≠ some γ := fun heq => hγ (hgroup γ heq)
  cases hg : t.groups.get? γ with
  | none =>
      -- an absent group stays absent: this request opens none but its own
      have habsent : (op.run t).groups.get? γ = none := by
        cases hg' : (op.run t).groups.get? γ with
        | none => rfl
        | some g' =>
            rcases TopicOp.group_of_run hpre hg' with ⟨g₁, hg₁, -⟩ | ⟨-, now, rfl, -⟩
            · rw [hg] at hg₁
              cases hg₁
            · exact absurd rfl hother
      refine ⟨fun g' hg' => ?_, fun _ => hs.gone hg⟩
      rw [habsent] at hg'
      cases hg'
  | some g₁ =>
      obtain ⟨hsame, hahead⟩ := hs.kept g₁ hg
      have hmark : g₁.ackWatermark = g.ackWatermark := by
        rcases hsame with rfl | ⟨now, -, rfl⟩
        · rfl
        · exact GroupState.stamp_ackWatermark g now
      have hstamp : ∀ now, req.sweepClock? τ = some now → g₁.stamp now = g.stamp now := by
        intro now hnow
        rcases hsame with rfl | ⟨now', hnow', rfl⟩
        · rfl
        · obtain rfl := Option.some.inj (hnow.symm.trans hnow')
          exact GroupState.stamp_stamp g now
      rcases TopicOp.group_run hpre hshape.size_le_threshold hg with hrun | ⟨now, rfl, hidle, hrun⟩
      · refine ⟨fun g' hg' => ⟨?_, fun o ho => ?_⟩, fun hnone => ?_⟩
        · obtain rfl := Option.some.inj (hrun.symm.trans hg')
          rcases TopicOp.groupRun_other hother hpurge g₁ (t := t) with heq | ⟨now, rfl, heq⟩
          · rwa [heq]
          · exact Or.inr ⟨now, hallow, heq.trans (hstamp now hallow)⟩
        · rw [TopicOp.messages_above happend hpurge hg hg' (hmark.trans_le ho), hahead o ho]
        · rw [hrun] at hnone
          cases hnone
      · refine ⟨fun g' hg' => ?_, fun _ => ⟨now, hallow, hstamp now hallow ▸ hidle⟩⟩
        rw [hrun] at hg'
        cases hg'

/-- What it takes for the sweep to drop a group. -/
theorem idle_of_swept {now : Nat} {g : GroupState} (hidle : keptBySweep now (g.stamp now) = false) :
    groupIdleExpireMs < now - g.lastActiveMs ∧
      ∀ id l, g.inFlight.get? id = some l → l.deadlineMs ≤ now := by
  rw [keptBySweep, Bool.or_eq_false_iff, decide_eq_false_iff_not, not_le] at hidle
  obtain ⟨hlong, hleases⟩ := hidle
  constructor
  · exact hlong.trans_le (Nat.sub_le_sub_left (GroupState.le_stamp_lastActiveMs g now) now)
  · intro id l hl
    rw [GroupState.stamp_inFlight, List.any_eq_false] at hleases
    have hlease := hleases l (OrdMap.mem_values.mpr ⟨id, hl⟩)
    simpa using hlease

end Consumer

/-- The state of a group that only its own requests may change. -/
structure SameCursor (g g' : GroupState) : Prop where
  ackWatermark : g'.ackWatermark = g.ackWatermark
  ackedAbove : g'.ackedAbove = g.ackedAbove
  inFlight : g'.inFlight = g.inFlight
  leasedOffsets : g'.leasedOffsets = g.leasedOffsets
  pollCount : g'.pollCount = g.pollCount

theorem SameCursor.stamp (g : GroupState) (now : Nat) : SameCursor g (g.stamp now) := by
  unfold GroupState.stamp
  split <;> exact ⟨rfl, rfl, rfl, rfl, rfl⟩

/-- In every reachable state, a request leaves the topics it does not name
as they were; a consumer request of group `h` leaves every other group of
its topic its cursor and the messages ahead of it, or else the group was
idle for longer than the limit and held no live lease. -/
theorem groups_and_topics_isolated (reqs : List AppRequest) (req : AppRequest) :
    (∀ σ, σ ∉ req.topics → ((({} : Queue).run reqs).apply req).1.topics.get? σ =
      (({} : Queue).run reqs).topics.get? σ) ∧
    ∀ τ h, req.consumer? = some (τ, h) →
      ∀ t, (({} : Queue).run reqs).topics.get? τ = some t →
        ∃ t', ((({} : Queue).run reqs).apply req).1.topics.get? τ = some t' ∧
          ∀ γ g, γ ≠ h → t.groups.get? γ = some g →
            (∀ g', t'.groups.get? γ = some g' → SameCursor g g' ∧
              ∀ o, g.ackWatermark ≤ o → t'.messages.get? o = t.messages.get? o) ∧
            (t'.groups.get? γ = none → ∃ ts, req.sweepClock? τ = some ts ∧
              groupIdleExpireMs < ts - g.lastActiveMs ∧
              ∀ id l, g.inFlight.get? id = some l → l.deadlineMs ≤ ts) := by
  refine ⟨fun σ hσ => apply_other_topic _ hσ, fun τ h hreq t ht => ?_⟩
  have hkeep : req ≠ .deleteTopic τ := by
    rintro rfl
    cases hreq
  have hsteps := apply_steps (({} : Queue).run reqs) req
  have hafter := hsteps.topicHas hkeep
    (P := fun t' => ∀ γ g, γ ≠ h → t.groups.get? γ = some g → Spared req τ t γ g t')
    (fun t₁ n op hshape hpre hallow hP γ g hγ hg =>
      (hP γ g hγ hg).step hreq hγ hshape hpre hallow)
    ⟨run_shape reqs, t, ht, fun γ g _ hg => Spared.refl hg⟩
  obtain ⟨-, t', ht', hspared⟩ := hafter
  refine ⟨t', ht', fun γ g hγ hg => ⟨fun g' hg' => ?_, fun hnone => ?_⟩⟩
  · obtain ⟨hsame, hahead⟩ := (hspared γ g hγ hg).kept g' hg'
    refine ⟨?_, hahead⟩
    rcases hsame with rfl | ⟨now, -, rfl⟩
    · exact ⟨rfl, rfl, rfl, rfl, rfl⟩
    · exact SameCursor.stamp g now
  · obtain ⟨now, hclock, hidle⟩ := (hspared γ g hγ hg).gone hnone
    exact ⟨now, hclock, idle_of_swept hidle⟩

/-- Two groups hold the message of topic `t`; topic `u` has one of its own. -/
def twoReaders : List AppRequest :=
  [.produce "t" .default .raw [1] "" 0 1, .produce "u" .default .raw [2] "" 0 1,
    .poll "t" "g" 1 1000 2, .poll "t" "h" 1 1000 2]

theorem groups_and_topics_isolated_ack :
    ((({} : Queue).run twoReaders).apply (.ack "t" "h" 1)).1.topics.get? "u" =
      (({} : Queue).run twoReaders).topics.get? "u" ∧
    ∃ t t' g g', (({} : Queue).run twoReaders).topics.get? "t" = some t ∧
      ((({} : Queue).run twoReaders).apply (.ack "t" "h" 1)).1.topics.get? "t" = some t' ∧
      t.groups.get? "g" = some g ∧ t'.groups.get? "g" = some g' ∧ SameCursor g g' ∧
      t'.messages.get? 0 = t.messages.get? 0 := by
  obtain ⟨hother, hgroups⟩ := groups_and_topics_isolated twoReaders (.ack "t" "h" 1)
  refine ⟨hother "u" (by decide), ?_⟩
  obtain ⟨t, ht⟩ := Option.isSome_iff_exists.mp
    (show ((({} : Queue).run twoReaders).topics.get? "t").isSome by decide)
  obtain ⟨t', ht', hkeep⟩ := hgroups "t" "h" rfl t ht
  have hbefore : ((({} : Queue).run twoReaders).topics.get? "t").any (fun t =>
      (t.groups.get? "g").any (·.ackWatermark = 0)) = true := by decide
  have hafter : (((({} : Queue).run twoReaders).apply (.ack "t" "h" 1)).1.topics.get? "t").any
      (fun t => (t.groups.get? "g").isSome) = true := by decide
  rw [ht, Option.any_some, Option.any_eq_true_iff_get] at hbefore
  rw [ht', Option.any_some] at hafter
  obtain ⟨g', hg'⟩ := Option.isSome_iff_exists.mp hafter
  obtain ⟨hsome, hmark⟩ := hbefore
  have hg := (Option.some_get hsome).symm
  obtain ⟨hsame, hahead⟩ := (hkeep "g" _ (by decide) hg).1 g' hg'
  exact ⟨t, t', _, g', ht, ht', hg, hg', hsame, hahead 0 (of_decide_eq_true hmark).le⟩

end HermesMq
