import HermesMq.QueueHistory
import HermesMq.TopicLimit

/-!
# The limit on consumer groups

A topic holds at most `maxGroupsPerTopic` groups. The limit is enforced
where a group is entered, after the request has been accepted and its
kind of answer is settled: a poll of a group there is no room for is
answered with no messages, and a commit is answered `Committed` although
nothing was committed. So the limit is an error, as every other limit is,
exactly when it is not reached (`group_limit_refuses_iff`).
-/

namespace HermesMq

/-- The topic has no room for the group once the request has swept it. -/
def TopicState.NoRoomFor (t : TopicState) (group : GroupId) (now : Option Nat) : Prop :=
  (now.elim t (sweepAndReclaim t)).groups.get? group = none ∧
    maxGroupsPerTopic ≤ (now.elim t (sweepAndReclaim t)).groups.size

theorem groupEntry_none_iff {t : TopicState} {group : GroupId} {now : Option Nat} :
    groupEntry t group now = none ↔
      t.groups.get? group = none ∧ maxGroupsPerTopic ≤ t.groups.size := by
  rw [← OrdMap.contains_eq_false]
  unfold groupEntry
  split_ifs with hfull
  · simpa using hfull
  · simpa using hfull

/-! ## Consumer requests with valid names -/

theorem checkConsumer_ok_iff {topic group : String} : checkConsumer topic group = .ok () ↔
    topic.utf8ByteSize ≤ maxNameBytes ∧ group.utf8ByteSize ≤ maxNameBytes := by
  rw [checkConsumer, bind_ok_iff, checkName_ok_iff, checkName_ok_iff]

/-- A consumer request is refused if and only if its names do not pass. -/
theorem consumer_rejected_iff {req : AppRequest} {τ : TopicId} {γ : GroupId} {now : Option Nat}
    (hreq : req.consumerClock? τ γ = some now) (q : Queue) :
    (q.apply req).2.Rejected ↔ checkConsumer τ γ ≠ .ok () := by
  cases req with
  | poll topic group | pollAuto topic group | commitOffset topic group
  | commitOffsetAt topic group =>
      simp only [AppRequest.consumerClock?] at hreq
      split_ifs at hreq with hnames
      obtain ⟨rfl, rfl⟩ := hnames
      cases hcheck : checkConsumer topic group with
      | error reason =>
          simp only [Queue.apply, hcheck]
          exact iff_of_true ⟨reason, rfl⟩ fun h => by cases h
      | ok _ =>
          simp only [Queue.apply, hcheck]
          exact iff_of_false (fun h => by obtain ⟨reason, h⟩ := h; cases h) fun h => h rfl
  | _ => cases hreq

theorem apply_commit {req : AppRequest} {τ : TopicId} {γ : GroupId} {offset : Offset}
    {now : Option Nat} (hreq : req.commitOf? τ γ = some (offset, now))
    (hok : checkConsumer τ γ = .ok ()) (q : Queue) :
    q.apply req = ((q.commit τ γ offset now).reclaimTopic τ, .committed) := by
  cases req with
  | commitOffset topic group o | commitOffsetAt topic group o ts =>
      simp only [AppRequest.commitOf?] at hreq
      split_ifs at hreq with hnames
      obtain ⟨rfl, rfl⟩ := hnames
      obtain ⟨rfl, rfl⟩ := Prod.mk.inj (Option.some.inj hreq)
      simp only [Queue.apply, hok]
  | _ => cases hreq

theorem commit_topic {q : Queue} {τ : TopicId} {t : TopicState} (ht : q.topics.get? τ = some t)
    (γ : GroupId) (offset : Offset) (now : Option Nat) :
    ((q.commit τ γ offset now).reclaimTopic τ).topics.get? τ =
      some (reclaim (commitTopic t γ offset now)) := by
  simp only [Queue.reclaimTopic, Queue.commit, Queue.updateTopic_topics, ht, Option.map_some,
    if_true]

/-! ## What a commit leaves -/

theorem commitTopic_nextOffset (t : TopicState) (γ : GroupId) (offset : Offset)
    (now : Option Nat) : (commitTopic t γ offset now).nextOffset = t.nextOffset := by
  rw [commitTopic_eq, consumeTopic]
  cases groupEntry (now.elim t (sweepAndReclaim t)) γ now <;> exact swept_nextOffset t now

/-- With room for the group, a commit ends with the group in place. -/
theorem commitTopic_entered {t : TopicState} {γ : GroupId} {now : Option Nat} {g : GroupState}
    (hentry : groupEntry (now.elim t (sweepAndReclaim t)) γ now = some g) (offset : Offset) :
    commitTopic t γ offset now = putGroup (now.elim t (sweepAndReclaim t)) γ
      ((g.advanceWatermark (min offset t.nextOffset)).touch now) := by
  rw [commitTopic_eq, consumeTopic]
  simp only [hentry, Option.elim_some, swept_nextOffset]

theorem commitTopic_groups {t : TopicState} (h : TopicShape t) {γ : GroupId} {now : Option Nat}
    {g : GroupState} (hentry : groupEntry (now.elim t (sweepAndReclaim t)) γ now = some g)
    (offset : Offset) :
    (reclaim (commitTopic t γ offset now)).groups =
      (now.elim t (sweepAndReclaim t)).groups.insert γ
        ((g.advanceWatermark (min offset t.nextOffset)).touch now) := by
  have hsize := (swept_shape h now).size_le
  have hsmall : (commitTopic t γ offset now).groups.size ≤ groupGcThreshold := by
    have hlimit : maxGroupsPerTopic + 1 ≤ groupGcThreshold := by decide
    rw [commitTopic_entered hentry, putGroup, OrdMap.size_insert]
    split_ifs <;> omega
  rw [reclaim_groups_of_small hsmall, commitTopic_entered hentry]
  rfl

theorem commitTopic_watermark {t : TopicState} (h : TopicShape t) {γ : GroupId}
    {now : Option Nat} (hroom : ¬t.NoRoomFor γ now) (offset : Offset) :
    ∃ g, (reclaim (commitTopic t γ offset now)).groups.get? γ = some g ∧
      min offset t.nextOffset ≤ g.ackWatermark := by
  have hshape := swept_shape h now
  cases hentry : groupEntry (now.elim t (sweepAndReclaim t)) γ now with
  | none => exact absurd (groupEntry_none_iff.mp hentry) hroom
  | some g =>
      have hmax : g.ackWatermark ≤ u64Max := by
        rcases groupEntry_eq_some hentry with ⟨-, hg⟩ | ⟨-, rfl⟩
        · exact (hshape.watermark hg).2
        · exact hshape.first_le.trans hshape.nextOffset_le
      have hle := (min_le_right offset t.nextOffset).trans h.nextOffset_le
      rw [commitTopic_groups h hentry, OrdMap.get?_insert_self]
      refine ⟨_, rfl, ?_⟩
      rw [GroupState.touch_ackWatermark]
      exact (le_max_right ..).trans (GroupState.advanceWatermark_watermark hmax hle).1

/-- Consumer requests on an existing topic of a reachable queue are
refused at the group limit, with nothing changed but the sweep, and a
`Committed` means that the group is there and past the offset: exactly if
the limit is not reached. -/
theorem group_limit_refuses_iff (reqs : List AppRequest) {req : AppRequest} {τ : TopicId}
    {γ : GroupId} {now : Option Nat} (hreq : req.consumerClock? τ γ = some now)
    {t : TopicState} (ht : (({} : Queue).run reqs).topics.get? τ = some t) :
    ((checkConsumer τ γ = .ok () → t.NoRoomFor γ now →
        ((({} : Queue).run reqs).apply req).2.Rejected ∧
          ((({} : Queue).run reqs).apply req).1 =
            (({} : Queue).run reqs).putTopic τ (now.elim t (sweepAndReclaim t))) ∧
      (((({} : Queue).run reqs).apply req).2 = .committed →
        ∀ offset, req.commitOf? τ γ = some (offset, now) →
          ∃ t' g, ((({} : Queue).run reqs).apply req).1.topics.get? τ = some t' ∧
            t'.groups.get? γ = some g ∧ min offset t'.nextOffset ≤ g.ackWatermark)) ↔
      ¬(checkConsumer τ γ = .ok () ∧ t.NoRoomFor γ now) := by
  have hshape := run_shape reqs τ t ht
  generalize ({} : Queue).run reqs = q at *
  constructor
  · rintro ⟨hrefused, -⟩ ⟨hok, hfull⟩
    exact (consumer_rejected_iff hreq q).mp (hrefused hok hfull).1 hok
  · intro hroom
    refine ⟨fun hok hfull => absurd ⟨hok, hfull⟩ hroom, fun hcommitted offset hcommit => ?_⟩
    have hok : checkConsumer τ γ = .ok () := by
      by_contra hbad
      obtain ⟨reason, h⟩ := (consumer_rejected_iff hreq q).mpr hbad
      rw [hcommitted] at h
      cases h
    obtain ⟨g, hg, hle⟩ := commitTopic_watermark hshape (fun hfull => hroom ⟨hok, hfull⟩) offset
    rw [apply_commit hcommit hok]
    refine ⟨_, g, commit_topic ht γ offset now, hg, ?_⟩
    rwa [reclaim_nextOffset, commitTopic_nextOffset]

/-- The first commit of a group on a topic without groups. -/
theorem group_limit_refuses_first_commit :
    let reqs : List AppRequest :=
      [.createTopic "t", .produce "t" .default .raw [1] "" 0 5,
        .produce "t" .default .raw [2] "" 0 5]
    ∃ t' g, ((({} : Queue).run reqs).apply (.commitOffset "t" "g" 1)).1.topics.get? "t" = some t' ∧
      t'.groups.get? "g" = some g ∧ min 1 t'.nextOffset ≤ g.ackWatermark := by
  intro reqs
  have ht : ∃ t, (({} : Queue).run reqs).topics.get? "t" = some t ∧ t.groups.size = 0 :=
    ⟨_, rfl, rfl⟩
  obtain ⟨t, ht, hsize⟩ := ht
  have hroom : ¬(checkConsumer "t" "g" = .ok () ∧ t.NoRoomFor "g" none) := fun h =>
    absurd (hsize ▸ h.2.2 : maxGroupsPerTopic ≤ 0) (Nat.not_succ_le_zero _)
  have hreq : (AppRequest.commitOffset "t" "g" 1).consumerClock? "t" "g" = some none := rfl
  exact ((group_limit_refuses_iff reqs hreq ht).mpr hroom).2 rfl 1 rfl

/-! ## A topic full of groups -/

theorem commitOffset_new {q : Queue} {τ : TopicId} {t : TopicState} {γ : GroupId}
    (hq : q.Topics TopicShape) (ht : q.topics.get? τ = some t)
    (hok : checkConsumer τ γ = .ok ()) (hnew : t.groups.get? γ = none)
    (hroom : t.groups.size < maxGroupsPerTopic) (offset : Offset) :
    ∃ t' g, (q.apply (.commitOffset τ γ offset)).1.topics.get? τ = some t' ∧
      t'.groups = t.groups.insert γ g := by
  have hentry : groupEntry ((none : Option Nat).elim t (sweepAndReclaim t)) γ none =
      some (freshGroup t none) := by
    have hnot : t.groups.contains γ = false := OrdMap.contains_eq_false.mpr hnew
    rw [Option.elim_none]
    simp [groupEntry, hnot, hroom, hnew]
  have hcommit : (AppRequest.commitOffset τ γ offset).commitOf? τ γ = some (offset, none) := by
    simp [AppRequest.commitOf?]
  rw [apply_commit hcommit hok, commit_topic ht]
  exact ⟨_, _, rfl, commitTopic_groups (hq τ t ht) hentry offset⟩

/-- One commit each of as many new groups as there is room for. -/
theorem run_commitOffsets {τ : TopicId} {names : List GroupId} (hnodup : names.Nodup)
    (hok : ∀ γ ∈ names, checkConsumer τ γ = .ok ()) {q : Queue} (hq : q.Topics TopicShape)
    {t : TopicState} (ht : q.topics.get? τ = some t) (hnew : ∀ γ ∈ names, t.groups.get? γ = none)
    (hroom : t.groups.size + names.length ≤ maxGroupsPerTopic) :
    ∃ t', (q.run (names.map (.commitOffset τ · 0))).topics.get? τ = some t' ∧
      t'.groups.size = t.groups.size + names.length ∧
      ∀ γ, γ ∉ names → t'.groups.get? γ = t.groups.get? γ := by
  induction names generalizing q t with
  | nil => exact ⟨t, ht, rfl, fun _ _ => rfl⟩
  | cons name rest ih =>
      rw [List.nodup_cons] at hnodup
      rw [List.length_cons] at hroom
      rw [List.forall_mem_cons] at hok hnew
      obtain ⟨t₁, g, ht₁, hgroups⟩ := commitOffset_new hq ht hok.1 hnew.1 (by omega) 0
      have hsize : t₁.groups.size = t.groups.size + 1 := by
        rw [hgroups, OrdMap.size_insert, OrdMap.contains_eq_false.mpr hnew.1]
        rfl
      have hother : ∀ γ, γ ≠ name → t₁.groups.get? γ = t.groups.get? γ := fun γ hne => by
        rw [hgroups, OrdMap.get?_insert_ne _ _ hne]
      obtain ⟨t', ht', hsize', hother'⟩ := ih hnodup.2 hok.2 ((apply_steps q _).shape hq) ht₁
        (fun γ hγ => (hother γ fun h => hnodup.1 (h ▸ hγ)).trans (hnew.2 γ hγ)) (by omega)
      refine ⟨t', ht', by rw [hsize', hsize, List.length_cons]; omega, fun γ hγ => ?_⟩
      rw [List.mem_cons, not_or] at hγ
      exact (hother' γ hγ.2).trans (hother γ hγ.1)

/-- The requests that give a topic as many groups as it may have. -/
def fillGroups : List AppRequest :=
  .createTopic "t" :: ((List.range maxGroupsPerTopic).map shortName).map (.commitOffset "t" · 0)

theorem fillGroups_topic : ∃ t, (({} : Queue).run fillGroups).topics.get? "t" = some t ∧
    t.NoRoomFor (shortName maxGroupsPerTopic) none := by
  have hok : ∀ γ ∈ (List.range maxGroupsPerTopic).map shortName,
      checkConsumer "t" γ = .ok () := by
    intro γ hγ
    obtain ⟨i, -, rfl⟩ := List.mem_map.mp hγ
    exact checkConsumer_ok_iff.mpr ⟨by decide, shortName_size i⟩
  have hlen : ((List.range maxGroupsPerTopic).map shortName).length = maxGroupsPerTopic := by
    rw [List.length_map, List.length_range]
  obtain ⟨t, ht, hsize, hother⟩ := run_commitOffsets (shortName_nodup (by decide)) hok
    (run_shape [.createTopic "t"]) (t := {}) rfl (fun _ _ => OrdMap.get?_empty _)
    (by rw [hlen]; exact (Nat.zero_add _).le)
  rw [fillGroups, ← List.singleton_append, Queue.run_append]
  refine ⟨t, ht, ?_, ?_⟩
  · refine hother _ fun hmem => ?_
    obtain ⟨i, hi, heq⟩ := List.mem_map.mp hmem
    have hlt := List.mem_range.mp hi
    have hbound : maxGroupsPerTopic < 0xd800 := by decide
    exact absurd (shortName_inj (hlt.trans hbound) hbound heq) hlt.ne
  · rw [Option.elim_none, hsize, hlen]
    exact Nat.le_add_left ..

/-- A commit of a group there is no room for is answered `Committed`, and
there is no such group afterwards. -/
theorem commitOffset_no_room {q : Queue} {τ : TopicId} {t : TopicState} {γ : GroupId}
    (ht : q.topics.get? τ = some t) (hok : checkConsumer τ γ = .ok ())
    (hfull : t.NoRoomFor γ none) (offset : Offset) :
    (q.apply (.commitOffset τ γ offset)).2 = .committed ∧
      ∃ t', (q.apply (.commitOffset τ γ offset)).1.topics.get? τ = some t' ∧
        t'.groups.get? γ = none := by
  have hcommit : (AppRequest.commitOffset τ γ offset).commitOf? τ γ = some (offset, none) := by
    simp [AppRequest.commitOf?]
  rw [apply_commit hcommit hok]
  refine ⟨rfl, _, commit_topic ht γ offset none, ?_⟩
  cases hg : (reclaim (commitTopic t γ offset none)).groups.get? γ with
  | none => rfl
  | some g =>
      have hsub := reclaim_sub hg
      rw [commitTopic_eq, consumeTopic, groupEntry_none_iff.mpr hfull, Option.elim_none,
        hfull.1] at hsub
      cases hsub

/-- One commit more than there is room for. -/
theorem commit_swallowed :
    ∃ (reqs : List AppRequest) (γ : GroupId) (t : TopicState),
      (({} : Queue).run reqs).topics.get? "t" = some t ∧ checkConsumer "t" γ = .ok () ∧
      t.NoRoomFor γ none ∧
      ((({} : Queue).run reqs).apply (.commitOffset "t" γ 0)).2 = .committed ∧
      ∃ t', ((({} : Queue).run reqs).apply (.commitOffset "t" γ 0)).1.topics.get? "t" = some t' ∧
        t'.groups.get? γ = none := by
  obtain ⟨t, ht, hfull⟩ := fillGroups_topic
  have hok : checkConsumer "t" (shortName maxGroupsPerTopic) = .ok () :=
    checkConsumer_ok_iff.mpr ⟨by decide, shortName_size _⟩
  exact ⟨fillGroups, _, t, ht, hok, hfull, commitOffset_no_room ht hok hfull 0⟩

end HermesMq
