import HermesMq.QueueLimits
import HermesMq.SelectionReference

/-!
# The gate in front of a poll

Before a node writes a poll to the log it asks `has_deliverable` whether
the poll would bring anything. The gate reads the deadlines of the leased
offsets, the poll expires the leases in flight and selects from what is
left. They agree as long as the two lease maps say the same, and for that
every lease needs an id of its own (`GroupState.Numbered`): with the lease
counter at the last `u64`, two leases share an id, and the offset of the
first one stays leased for ever (`gate_open_poll_empty`).
-/

namespace HermesMq

/-! ## Polls that bring something -/

/-- What the gate looks for, an offset neither acked nor under a lease that
outlives `now`, is what the group can be given once a poll has expired its
leases. -/
theorem gate_group_iff (messages : OrdMap Offset Message) {g : GroupState}
    (hagree : g.LeasesAgree) (hbacked : g.LeasesBacked) (now : Nat) :
    ((messages.splitOff g.ackWatermark).entries.any fun (offset, _) =>
      decide (offset ∉ g.ackedAbove) && (g.leasedOffsets.get? offset).all (· ≤ now)) = true ↔
      ∃ o, Deliverable messages (g.beginPoll now) o := by
  have hfree := beginPoll_unleased_iff hagree hbacked now
  have hrange : ∀ o m, (o, m) ∈ (messages.splitOff g.ackWatermark).entries ↔
      g.ackWatermark ≤ o ∧ messages.get? o = some m := by
    intro o m
    rw [← OrdMap.get?_eq_some, OrdMap.get?_splitOff]
    split_ifs with hle <;> simp [hle]
  rw [List.any_eq_true]
  constructor
  · rintro ⟨⟨o, m⟩, hmem, hgate⟩
    obtain ⟨hacked, hleased⟩ := Bool.and_eq_true_iff.mp hgate
    obtain ⟨hle, hm⟩ := (hrange o m).mp hmem
    exact ⟨o, ⟨m, hm⟩, by simpa using hle, by simpa using hacked, (hfree o).mpr hleased⟩
  · rintro ⟨o, ⟨m, hm⟩, hle, hacked, hleased⟩
    refine ⟨(o, m), (hrange o m).mpr ⟨by simpa using hle, hm⟩, ?_⟩
    exact Bool.and_eq_true_iff.mpr ⟨by simpa using hacked, (hfree o).mp hleased⟩

/-- A poll for at least one message brings one if any is deliverable. -/
theorem poll_ne_nil_iff {q : Queue} {τ : TopicId} {γ : GroupId} {t : TopicState} {g₀ : GroupState}
    {max : Nat} (hmax : 1 ≤ max) (vis ts : Nat) (ht : q.topics.get? τ = some t)
    (hentry : groupEntry (sweepAndReclaim t ts) γ (some ts) = some g₀) :
    (q.poll τ γ max vis ts).2 ≠ [] ↔
      ∃ o, Deliverable (sweepAndReclaim t ts).messages (g₀.beginPoll ts) o := by
  rw [← List.length_pos_iff, poll_length max vis ts ht hentry, lt_min_iff,
    List.length_pos_iff_exists_mem]
  constructor
  · rintro ⟨-, x, hx⟩
    exact ⟨x.2, (mem_candidates.mp hx).1⟩
  · rintro ⟨o, hdel⟩
    obtain ⟨m, hm⟩ := hdel.retained
    exact ⟨hmax, (m.priority, o), mem_candidates.mpr ⟨hdel, m, hm, rfl⟩⟩

/-- The sweep at `now` leaves the group as it is: it keeps the group, or
the group is missing, no other is dropped, and the topic has room. -/
def Queue.Settled (q : Queue) (τ : TopicId) (γ : GroupId) (now : Nat) : Prop :=
  ∀ t, q.topics.get? τ = some t →
    (∃ g, t.groups.get? γ = some g ∧ keptBySweep now (g.stamp now) = true) ∨
    (t.groups.get? γ = none ∧ (sweepIdleGroups t now).2 = false ∧
      t.groups.size < maxGroupsPerTopic)

/-- A poll of a group that the sweep keeps. -/
theorem gate_of_kept {t : TopicState} (h : TopicShape t) {γ : GroupId} {g : GroupState}
    (hg : t.groups.get? γ = some g) {now : Nat} (hkept : keptBySweep now (g.stamp now) = true) :
    groupEntry (sweepAndReclaim t now) γ (some now) = some (g.stamp now) ∧
      ∀ o, Deliverable (sweepAndReclaim t now).messages ((g.stamp now).beginPoll now) o ↔
        Deliverable t.messages ((g.stamp now).beginPoll now) o := by
  have hswept : (sweepAndReclaim t now).groups.get? γ = some (g.stamp now) := by
    rw [sweepAndReclaim_groups_of_small now h.size_le_threshold, hg, Option.map_some,
      Option.filter_some, if_pos hkept]
  refine ⟨by simp [groupEntry, OrdMap.contains, hswept], fun o => ?_⟩
  -- nothing above the group's watermark is reclaimed
  have habove : (g.stamp now).ackWatermark ≤ o →
      (sweepAndReclaim t now).messages.get? o = t.messages.get? o := sweepAndReclaim_above hswept
  constructor
  · intro hdel
    exact { hdel with retained := habove (by simpa using hdel.above) ▸ hdel.retained }
  · intro hdel
    exact { hdel with retained := habove (by simpa using hdel.above) ▸ hdel.retained }

/-- A poll that creates its group. -/
theorem gate_of_fresh {t : TopicState} {γ : GroupId} (hg : t.groups.get? γ = none) {now : Nat}
    (hswept : (sweepIdleGroups t now).2 = false) (hroom : t.groups.size < maxGroupsPerTopic) :
    ∃ g₀, groupEntry (sweepAndReclaim t now) γ (some now) = some g₀ ∧
      ((∃ o, Deliverable (sweepAndReclaim t now).messages (g₀.beginPoll now) o) ↔
        t.messages.size ≠ 0) := by
  have hsweep : sweepAndReclaim t now = (sweepIdleGroups t now).1 := by
    simp [sweepAndReclaim, hswept]
  have hnone : (sweepIdleGroups t now).1.groups.get? γ = none := by
    rw [sweepIdleGroups_groups, hg]
    rfl
  have hsize : (sweepIdleGroups t now).1.groups.size < maxGroupsPerTopic :=
    (sweepIdleGroups_size_le t now).trans_lt hroom
  rw [hsweep]
  refine ⟨freshGroup (sweepIdleGroups t now).1 (some now),
    by simp [groupEntry, hnone, not_le.mpr hsize], ?_⟩
  rw [Ne, OrdMap.size_eq_zero]
  constructor
  · rintro ⟨o, ⟨m, hm⟩, -⟩ hempty
    rw [show (sweepIdleGroups t now).1.messages = t.messages from rfl, hempty] at hm
    cases hm
  · intro hne
    rcases first_cases t with ⟨m, hm⟩ | ⟨-, hnil⟩
    · exact ⟨t.first, ⟨m, hm⟩, le_rfl, by simp [freshGroup], rfl⟩
    · exact absurd (OrdMap.ext_get? hnil) hne

/-- The gate is open for a group if and only if the poll behind it would
bring a message, as long as the lease counter has not run out. -/
theorem gate_matches_poll (reqs : List AppRequest) {τ : TopicId} {γ : GroupId}
    (hok : checkConsumer τ γ = .ok ()) {max : Nat} (hmax : 1 ≤ max) (vis now : Nat)
    (hsettled : (({} : Queue).run reqs).Settled τ γ now)
    (hcounter : (({} : Queue).run reqs).nextLeaseId < u64Max) :
    (({} : Queue).run reqs).hasDeliverable τ γ now = true ↔
      ((({} : Queue).run reqs).apply (.poll τ γ max vis now)).2.delivered ≠ [] := by
  have hshape := run_shape reqs
  have hnumbered := run_numbered reqs
  generalize ({} : Queue).run reqs = q at *
  rw [Queue.apply_poll hok, AppResponse.delivered]
  cases ht : q.topics.get? τ with
  | none => simp [Queue.hasDeliverable, Queue.poll, ht]
  | some t =>
      rcases hsettled t ht with ⟨g, hg, hkept⟩ | ⟨hg, hswept, hroom⟩
      · obtain ⟨hentry, hsame⟩ := gate_of_kept (hshape τ t ht) hg hkept
        have hagree := (hshape τ t ht).leases hg
        have hbacked := (hnumbered τ t ht hcounter γ g hg).backed
        have hstamp := gate_group_iff t.messages
          (hagree.of_maps (GroupState.stamp_inFlight g now) (GroupState.stamp_leasedOffsets g now))
          (hbacked.of_maps (GroupState.stamp_inFlight g now)
            (GroupState.stamp_leasedOffsets g now)) now
        rw [poll_ne_nil_iff hmax vis now ht hentry, exists_congr hsame, ← hstamp,
          GroupState.stamp_ackWatermark, GroupState.stamp_ackedAbove,
          GroupState.stamp_leasedOffsets, Queue.hasDeliverable, ht]
        simp only [hg]
      · obtain ⟨g₀, hentry, hiff⟩ := gate_of_fresh hg hswept hroom
        rw [poll_ne_nil_iff hmax vis now ht hentry, hiff]
        simp [Queue.hasDeliverable, ht, hg]

/-- The gate opens for a message that no group has seen. -/
theorem gate_matches_poll_new_group :
    (({} : Queue).run [plainProduce]).hasDeliverable "t" "g" 2 = true ∧
      ((({} : Queue).run [plainProduce]).apply (.poll "t" "g" 1 1000 2)).2.delivered ≠ [] := by
  have hopen : (({} : Queue).run [plainProduce]).hasDeliverable "t" "g" 2 = true := by decide
  have hsettled : (({} : Queue).run [plainProduce]).Settled "t" "g" 2 := by
    intro t ht
    obtain rfl : oneMessage = t := Option.some.inj ht
    exact Or.inr (by decide)
  exact ⟨hopen, (gate_matches_poll [plainProduce] rfl le_rfl 1000 2 hsettled (by decide)).mp hopen⟩

/-- The offset whose lease was overwritten is past its deadline at 2000,
so the gate is open, but the poll does not expire it. -/
theorem gate_open_poll_empty :
    checkConsumer "t" "g" = .ok () ∧ (({} : Queue).run sharedLease).Settled "t" "g" 2000 ∧
      (({} : Queue).run sharedLease).hasDeliverable "t" "g" 2000 = true ∧
      ((({} : Queue).run sharedLease).apply (.poll "t" "g" 1 1000 2000)).2.delivered = [] := by
  rw [sharedLease, Queue.run_append, run_burnLeases]
  refine ⟨rfl, fun t ht => Or.inl ?_, by decide, by decide⟩
  obtain rfl := Option.some.inj ht
  exact ⟨_, rfl, by decide⟩

end HermesMq
