import HermesMq.QueueInvariants
import Mathlib.Tactic.Tauto

/-!
# What makes an offset done

An offset is done for a group when the group's watermark or its acked
set covers it. This module ties the done set to the requests of a run.

`Queue.opens` says when a request starts a group afresh and at which
watermark; `Queue.DoneBy` says which offsets a request may make done: a
held lease acked, a commit past the offset, a retention boundary above
it. `apply_group` is the step lemma: after any request a group's done set
is what it was before (or what is below its starting watermark), grown by
offsets `DoneBy` accounts for. The run theorem follows by induction on
the history.
-/

namespace HermesMq

/-! ## Opening a group -/

/-- A consumer request of group `γ` on topic `τ`, with the clock it
brings: `commitOffset` brings none. -/
def AppRequest.consumerClock? (τ : TopicId) (γ : GroupId) : AppRequest → Option (Option Nat)
  | .poll topic group _ _ tsMs => if topic = τ ∧ group = γ then some (some tsMs) else none
  | .pollAuto topic group _ _ tsMs => if topic = τ ∧ group = γ then some (some tsMs) else none
  | .commitOffset topic group _ => if topic = τ ∧ group = γ then some none else none
  | .commitOffsetAt topic group _ tsMs =>
      if topic = τ ∧ group = γ then some (some tsMs) else none
  | _ => none

theorem AppRequest.consumerClock?_of_pollOf? {req : AppRequest} {τ : TopicId} {γ : GroupId}
    {ts d : Nat} (h : req.pollOf? τ γ = some (ts, d)) :
    req.consumerClock? τ γ = some (some ts) := by
  obtain ⟨max, vis, rfl | rfl, -⟩ := AppRequest.pollOf?_eq_some h
  · exact if_pos ⟨rfl, rfl⟩
  · exact if_pos ⟨rfl, rfl⟩

theorem AppRequest.consumerClock?_of_commitOf? {req : AppRequest} {τ : TopicId} {γ : GroupId}
    {offset : Offset} {now : Option Nat} (h : req.commitOf? τ γ = some (offset, now)) :
    req.consumerClock? τ γ = some now := by
  cases req with
  | commitOffset topic group upto | commitOffsetAt topic group upto tsMs =>
      rw [commitOf?] at h
      split_ifs at h with heq
      obtain ⟨-, rfl⟩ := Prod.mk.inj (Option.some.inj h)
      exact if_pos heq
  | _ => cases h

/-- The watermark group `γ` would start at, if it is absent and there is
room for it. -/
def openedIn (t : TopicState) (γ : GroupId) : Option Offset :=
  if t.groups.contains γ || t.groups.size ≥ maxGroupsPerTopic then none else some t.first

/-- The starting watermark of group `γ` of topic `τ`, when the request
(re)creates it. The request's own idle sweep comes first, so a group can
be swept and created again by one poll. -/
def Queue.opens (q : Queue) (req : AppRequest) (τ : TopicId) (γ : GroupId) : Option Offset :=
  match q.topics.get? τ, req.consumerClock? τ γ, checkConsumer τ γ with
  | some t, some now, .ok () => openedIn (now.elim t (sweepAndReclaim t)) γ
  | _, _, _ => none

/-! ## Making an offset done -/

/-- The group holds lease `id` on offset `o`. -/
def Queue.Holds (q : Queue) (τ : TopicId) (γ : GroupId) (id : LeaseId) (o : Offset) : Prop :=
  ∃ t g l, q.topics.get? τ = some t ∧ t.groups.get? γ = some g ∧
    g.inFlight.get? id = some l ∧ l.offset = o

/-- The topic `produce_one` runs retention on. -/
def produceAppended (t : TopicState) (item : ProduceItem) : TopicState :=
  if item.producerId ≠ "" ∧ t.dedup.contains item.dedupKey then t else appendMessage t item

/-- The boundary of the retention purge of `produce_one`, if it purges. -/
def Queue.retentionBoundary (q : Queue) (item : ProduceItem) : Option Offset :=
  let t := produceAppended (q.topicOrDefault item.topic) item
  if purgeSet t item.tsMs = ∅ then none else some (purgeBoundary t item.tsMs)

/-- Some item of the batch, reached after producing those before it,
purges topic `τ` past `o`. -/
def Queue.PurgesPast (q : Queue) (items : List ProduceItem) (τ : TopicId) (o : Offset) : Prop :=
  ∃ pre item post b, items = pre ++ item :: post ∧ item.topic = τ ∧
    (q.produceAll pre).1.retentionBoundary item = some b ∧ o < b

/-- A commit at `offset`, clamped to the end of the topic, is past `o`. -/
def Queue.CommitsPast (q : Queue) (τ : TopicId) (offset o : Offset) : Prop :=
  ∃ t, q.topics.get? τ = some t ∧ o < min offset t.nextOffset

/-- The messages a response delivers. -/
def AppResponse.delivered : AppResponse → List Delivered
  | .polled items => items
  | _ => []

/-- The request, applied in state `q`, gives group `γ` of topic `τ` a
reason to be done with `o`. -/
def Queue.DoneBy (q : Queue) (req : AppRequest) (τ : TopicId) (γ : GroupId) (o : Offset) : Prop :=
  (∀ reason, (q.apply req).2 ≠ .rejected reason) ∧
  match req with
  | .ack topic group id => topic = τ ∧ group = γ ∧ q.Holds τ γ id o
  | .ackMany topic group ids => topic = τ ∧ group = γ ∧ ∃ id ∈ ids, q.Holds τ γ id o
  | .pollAuto topic group _ _ _ => topic = τ ∧ group = γ ∧
      ∃ item ∈ (q.apply req).2.delivered, item.offset = o
  | .commitOffset topic group offset => topic = τ ∧ group = γ ∧ q.CommitsPast τ offset o
  | .commitOffsetAt topic group offset _ => topic = τ ∧ group = γ ∧ q.CommitsPast τ offset o
  | .produce .. => q.PurgesPast req.items τ o
  | .produceMany _ => q.PurgesPast req.items τ o
  | _ => False

/-- `after` is `base` and nothing more than `cause` accounts for, at the
offsets below the last `u64`. A watermark can reach the last one and cannot
step past it. -/
def Grows (base after cause : Offset → Prop) : Prop :=
  ∀ o < u64Max, (base o → after o) ∧ (after o → base o ∨ cause o)

theorem Grows.of_iff {base after : Offset → Prop} {cause : Offset → Prop}
    (h : ∀ o, after o ↔ base o) : Grows base after cause :=
  fun o _ => ⟨(h o).mpr, fun ha => Or.inl ((h o).mp ha)⟩

theorem Grows.trans {a b c : Offset → Prop} {cause cause' : Offset → Prop}
    (hab : Grows a b cause) (hbc : Grows b c cause') :
    Grows a c fun o => cause o ∨ cause' o := by
  intro o ho
  obtain ⟨hab₁, hab₂⟩ := hab o ho
  obtain ⟨hbc₁, hbc₂⟩ := hbc o ho
  tauto

theorem Grows.mono {base after : Offset → Prop} {cause cause' : Offset → Prop}
    (h : Grows base after cause) (hc : ∀ o, cause o → cause' o) : Grows base after cause' :=
  fun o ho => ⟨(h o ho).1, fun ha => ((h o ho).2 ha).imp id (hc o)⟩

/-! ## Where a request finds its group -/

/-- What group `γ` is done with when the request starts on it: what it
was done with before, or everything below the watermark it starts at. -/
def Queue.Enters (q : Queue) (req : AppRequest) (τ : TopicId) (γ : GroupId)
    (base : Offset → Prop) : Prop :=
  (∃ w, q.opens req τ γ = some w ∧ base = (· < w)) ∨
    (q.opens req τ γ = none ∧ ∃ t g, q.topics.get? τ = some t ∧
      t.groups.get? γ = some g ∧ base = g.Done)

section Enters

variable {q : Queue} {req : AppRequest} {τ : TopicId} {γ : GroupId} {t : TopicState}

theorem Queue.opens_of_not_consumer (h : req.consumerClock? τ γ = none) :
    q.opens req τ γ = none := by
  unfold Queue.opens
  rw [h]
  split <;> simp_all

theorem enters_of_not_consumer (h : req.consumerClock? τ γ = none)
    (ht : q.topics.get? τ = some t) {g : GroupState} (hg : t.groups.get? γ = some g) :
    q.Enters req τ γ g.Done :=
  Or.inr ⟨Queue.opens_of_not_consumer h, t, g, ht, hg, rfl⟩

theorem swept_sub {now : Option Nat} {g' : GroupState}
    (h : (now.elim t (sweepAndReclaim t)).groups.get? γ = some g') :
    ∃ g, t.groups.get? γ = some g ∧ ∀ o, g'.Done o ↔ g.Done o := by
  cases now with
  | none => exact ⟨g', h, fun _ => Iff.rfl⟩
  | some now =>
      obtain ⟨g, hg, rfl, -⟩ := sweepAndReclaim_sub h
      exact ⟨g, hg, GroupState.stamp_done g now⟩

theorem groupEntry_eq_none {now : Option Nat} (h : groupEntry t γ now = none) :
    t.groups.get? γ = none := by
  unfold groupEntry at h
  split_ifs at h with hfull
  simp only [Bool.and_eq_true, Bool.not_eq_true'] at hfull
  exact OrdMap.contains_eq_false.mp hfull.1

theorem groupEntry_eq_some {now : Option Nat} {g : GroupState}
    (h : groupEntry t γ now = some g) :
    (openedIn t γ = none ∧ t.groups.get? γ = some g) ∨
      (openedIn t γ = some t.first ∧ g = freshGroup t now) := by
  unfold groupEntry at h
  split_ifs at h with hfull
  unfold openedIn
  cases hg : t.groups.get? γ with
  | some g' =>
      rw [hg] at h
      obtain rfl := Option.some.inj h
      exact Or.inl ⟨if_pos (by simp [OrdMap.contains, hg]), rfl⟩
  | none =>
      rw [hg] at h
      refine Or.inr ⟨if_neg ?_, (Option.some.inj h).symm⟩
      simpa [OrdMap.contains, hg] using hfull

theorem Queue.opens_of_consumer {now : Option Nat} (hclock : req.consumerClock? τ γ = some now)
    (hok : checkConsumer τ γ = .ok ()) (ht : q.topics.get? τ = some t) :
    q.opens req τ γ = openedIn (now.elim t (sweepAndReclaim t)) γ := by
  rw [Queue.opens, ht, hclock, hok]

/-- A consumer request enters its group where `opens` says. -/
theorem enters_of_entry {now : Option Nat} {g0 : GroupState}
    (hclock : req.consumerClock? τ γ = some now) (hok : checkConsumer τ γ = .ok ())
    (ht : q.topics.get? τ = some t)
    (h : groupEntry (now.elim t (sweepAndReclaim t)) γ now = some g0) :
    ∃ base, q.Enters req τ γ base ∧ ∀ o, g0.Done o ↔ base o := by
  have hopens := Queue.opens_of_consumer hclock hok ht
  rcases groupEntry_eq_some h with ⟨hopen, hg⟩ | ⟨hopen, rfl⟩
  · obtain ⟨g, hg, hdone⟩ := swept_sub hg
    exact ⟨g.Done, Or.inr ⟨hopens.trans hopen, t, g, ht, hg, rfl⟩, hdone⟩
  · refine ⟨_, Or.inl ⟨_, hopens.trans hopen, rfl⟩, fun o => ?_⟩
    simp [GroupState.Done, freshGroup]

end Enters

/-! ## Updates along lists -/

theorem foldl_updateGroup_get {α : Type} {q : Queue} {topic τ : TopicId} {group γ : GroupId}
    (f : α → GroupState → GroupState) (l : List α) {t' : TopicState} {g' : GroupState}
    (ht : (l.foldl (fun q a => q.updateTopic topic (updateGroup · group (f a))) q).topics.get? τ =
      some t')
    (hg : t'.groups.get? γ = some g') :
    ∃ t g, q.topics.get? τ = some t ∧ t.groups.get? γ = some g ∧
      g' = if τ = topic ∧ γ = group then l.foldl (fun g a => f a g) g else g := by
  rw [Queue.foldl_updateTopic q topic (fun t a => updateGroup t group (f a)) l,
    Queue.updateTopic_topics] at ht
  obtain ⟨t, htq, rfl⟩ := Option.map_eq_some_iff.mp ht
  by_cases hτ : τ = topic
  · rw [if_pos hτ, foldl_updateGroup, updateGroup_group] at hg
    obtain ⟨g, hgt, rfl⟩ := Option.map_eq_some_iff.mp hg
    exact ⟨t, g, htq, hgt, by simp [hτ]⟩
  · rw [if_neg hτ] at hg
    exact ⟨t, g', htq, hg, by simp [hτ]⟩

/-! ## Acks -/

theorem ackLease_inFlight_sub {g : GroupState} {id i : LeaseId} {l : Lease}
    (h : (g.ackLease id).inFlight.get? i = some l) : g.inFlight.get? i = some l := by
  unfold GroupState.ackLease at h
  split at h
  · exact h
  · rw [GroupState.markAcked_inFlight, GroupState.removeLease_inFlight] at h
    split_ifs at h
    exact h

/-- Acking leases makes done only what those leases hold. -/
theorem foldl_ackLease_grows (ids : List LeaseId) :
    ∀ {g : GroupState}, g.ackWatermark ≤ u64Max →
      Grows g.Done (ids.foldl GroupState.ackLease g).Done
        fun o => ∃ id ∈ ids, ∃ l, g.inFlight.get? id = some l ∧ l.offset = o := by
  induction ids with
  | nil => exact fun _ => Grows.of_iff fun _ => Iff.rfl
  | cons id rest ih =>
      intro g hw
      have hhead : Grows g.Done (g.ackLease id).Done
          fun o => ∃ l, g.inFlight.get? id = some l ∧ l.offset = o := fun o ho =>
        ⟨fun hd => (GroupState.ackLease_done hw id ho).mpr (Or.inl hd),
          (GroupState.ackLease_done hw id ho).mp⟩
      refine (hhead.trans (ih (GroupState.ackLease_watermark hw id).2)).mono ?_
      rintro o (⟨l, hl, rfl⟩ | ⟨i, hi, l, hl, rfl⟩)
      · exact ⟨id, List.mem_cons_self .., l, hl, rfl⟩
      · exact ⟨i, List.mem_cons_of_mem _ hi, l, ackLease_inFlight_sub hl, rfl⟩

theorem foldl_ack_group {q : Queue} {topic τ : TopicId} {group γ : GroupId}
    (ids : List LeaseId) {t' : TopicState} {g' : GroupState}
    (ht : (ids.foldl (fun q id => q.ack topic group id) q).topics.get? τ = some t')
    (hg : t'.groups.get? γ = some g') :
    ∃ t g, q.topics.get? τ = some t ∧ t.groups.get? γ = some g ∧
      g' = if τ = topic ∧ γ = group then ids.foldl GroupState.ackLease g else g :=
  foldl_updateGroup_get (fun id g => g.ackLease id) ids ht hg

theorem foldl_nack_group {q : Queue} {topic τ : TopicId} {group γ : GroupId}
    (ids : List LeaseId) {t' : TopicState} {g' : GroupState}
    (ht : (ids.foldl (fun q id => q.nack topic group id) q).topics.get? τ = some t')
    (hg : t'.groups.get? γ = some g') :
    ∃ t g, q.topics.get? τ = some t ∧ t.groups.get? γ = some g ∧ ∀ o, g'.Done o ↔ g.Done o := by
  obtain ⟨t, g, htq, hgt, rfl⟩ := foldl_updateGroup_get (fun id g => g.removeLease id) ids ht hg
  refine ⟨t, g, htq, hgt, fun o => ?_⟩
  split_ifs
  · exact List.foldlRecOn (motive := fun g' : GroupState => g'.Done o ↔ g.Done o) ids _ Iff.rfl
      fun b hb id _ => (GroupState.sameButLeases_removeLease b id).done.trans hb
  · exact Iff.rfl

theorem reclaimTopic_group {q : Queue} {topic τ : TopicId} {γ : GroupId}
    {t' : TopicState} {g' : GroupState}
    (ht : (q.reclaimTopic topic).topics.get? τ = some t') (hg : t'.groups.get? γ = some g') :
    ∃ t, q.topics.get? τ = some t ∧ t.groups.get? γ = some g' := by
  rw [Queue.reclaimTopic, Queue.updateTopic_topics] at ht
  obtain ⟨t, htq, rfl⟩ := Option.map_eq_some_iff.mp ht
  split_ifs at hg
  · exact ⟨t, htq, reclaim_sub hg⟩
  · exact ⟨t, htq, hg⟩

/-! ## Polls and commits -/

/-- The request is a consumer request of this group and of no other. -/
def AppRequest.ConsumerOf (req : AppRequest) (topic : TopicId) (group : GroupId)
    (now : Option Nat) : Prop :=
  ∀ τ γ, req.consumerClock? τ γ = if topic = τ ∧ group = γ then some now else none

theorem AppRequest.ConsumerOf.not_consumer {req : AppRequest} {topic τ : TopicId}
    {group γ : GroupId} {now : Option Nat} (h : req.ConsumerOf topic group now)
    (hne : ¬(topic = τ ∧ group = γ)) : req.consumerClock? τ γ = none :=
  (h τ γ).trans (if_neg hne)

theorem Queue.poll_topics (q : Queue) (topic τ : TopicId) (group : GroupId)
    (max vis ts : Nat) :
    (q.poll topic group max vis ts).1.topics.get? τ = (q.topics.get? τ).map fun t =>
      if τ = topic then (pollTopic t group max vis ts q.nextLeaseId).1 else t := by
  unfold Queue.poll
  cases h : q.topics.get? topic with
  | none =>
      by_cases hτ : τ = topic
      · rw [hτ, h]; rfl
      · simp [hτ]
  | some t =>
      simp only [Queue.putTopic_topics]
      by_cases hτ : τ = topic
      · rw [if_pos hτ, hτ, h]; simp
      · simp [hτ]

theorem Queue.poll_items {q : Queue} {topic : TopicId} {t : TopicState}
    (h : q.topics.get? topic = some t) (group : GroupId) (max vis ts : Nat) :
    (q.poll topic group max vis ts).2 =
      (pollTopic t group max vis ts q.nextLeaseId).2.2 := by
  simp only [Queue.poll, h]

/-- Both consumer operations sweep, enter the group and put it back
changed by some `f`. -/
def consumeTopic (t : TopicState) (group : GroupId) (now : Option Nat)
    (f : TopicState → GroupState → GroupState) : TopicState :=
  let t := now.elim t (sweepAndReclaim t)
  (groupEntry t group now).elim t fun g0 => putGroup t group (f t g0)

theorem pollTopic_fst (t : TopicState) (group : GroupId) (max vis ts : Nat) (n : LeaseId) :
    (pollTopic t group max vis ts n).1 = consumeTopic t group (some ts) fun t g0 =>
      (pollGroup t.messages g0 max (min vis maxVisibilityMs) ts n).1 := by
  simp only [pollTopic, consumeTopic, Option.elim_some]
  cases groupEntry (sweepAndReclaim t ts) group (some ts) <;> rfl

theorem commitTopic_eq (t : TopicState) (group : GroupId) (offset : Offset)
    (now : Option Nat) :
    commitTopic t group offset now = consumeTopic t group now fun t g0 =>
      (g0.advanceWatermark (min offset t.nextOffset)).touch now := by
  simp only [commitTopic, consumeTopic]
  cases groupEntry (now.elim t (sweepAndReclaim t)) group now <;> rfl

/-- A group after a consumer operation: another group is where it was,
the consumer's own is entered where `opens` says and then changed by `f`. -/
theorem consumeTopic_group {q : Queue} {req : AppRequest} {τ : TopicId} {group γ : GroupId}
    {now : Option Nat} (hreq : req.ConsumerOf τ group now)
    (hok : checkConsumer τ group = .ok ()) {t : TopicState} (ht : q.topics.get? τ = some t)
    {f : TopicState → GroupState → GroupState} {g' : GroupState}
    (hg : (consumeTopic t group now f).groups.get? γ = some g') :
    ∃ base, q.Enters req τ γ base ∧
      ((γ ≠ group ∧ ∀ o, g'.Done o ↔ base o) ∨
        (γ = group ∧ ∃ g0, groupEntry (now.elim t (sweepAndReclaim t)) group now = some g0 ∧
          g' = f (now.elim t (sweepAndReclaim t)) g0 ∧ ∀ o, g0.Done o ↔ base o)) := by
  have hother : (now.elim t (sweepAndReclaim t)).groups.get? γ = some g' → γ ≠ group →
      ∃ base, q.Enters req τ γ base ∧ ∀ o, g'.Done o ↔ base o := fun hg1 hγ => by
    obtain ⟨g, hgt, hdone⟩ := swept_sub hg1
    have hc := hreq.not_consumer (τ := τ) fun h => hγ h.2.symm
    exact ⟨_, enters_of_not_consumer hc ht hgt, hdone⟩
  unfold consumeTopic at hg
  simp only at hg
  cases hentry : groupEntry (now.elim t (sweepAndReclaim t)) group now with
  | none =>
      rw [hentry, Option.elim_none] at hg
      have hγ : γ ≠ group := by
        rintro rfl
        rw [groupEntry_eq_none hentry] at hg
        cases hg
      obtain ⟨base, henter, hdone⟩ := hother hg hγ
      exact ⟨base, henter, Or.inl ⟨hγ, hdone⟩⟩
  | some g0 =>
      rw [hentry, Option.elim_some, putGroup_groups] at hg
      split_ifs at hg with hγ
      · subst hγ
        obtain ⟨base, henter, hdone⟩ := enters_of_entry
          ((hreq τ γ).trans (if_pos ⟨rfl, rfl⟩)) hok ht hentry
        exact ⟨base, henter, Or.inr ⟨rfl, g0, rfl, (Option.some.inj hg).symm, hdone⟩⟩
      · obtain ⟨base, henter, hdone⟩ := hother hg hγ
        exact ⟨base, henter, Or.inl ⟨hγ, hdone⟩⟩

/-- A group after a poll: entered where `opens` says, with no change to
what it is done with; the polling group's leases under ids just handed
out are on the offsets handed out. -/
theorem poll_group {q : Queue} {req : AppRequest} {topic τ : TopicId} {group γ : GroupId}
    {max vis ts : Nat} (hreq : req.ConsumerOf topic group (some ts))
    (hok : checkConsumer topic group = .ok ()) {t' : TopicState} {g' : GroupState}
    (ht : (q.poll topic group max vis ts).1.topics.get? τ = some t')
    (hg : t'.groups.get? γ = some g') :
    (∃ base, q.Enters req τ γ base ∧ ∀ o, g'.Done o ↔ base o) ∧
      (τ = topic ∧ γ = group → ∀ id l, g'.inFlight.get? id = some l →
        id ∈ (q.poll topic group max vis ts).2.map (·.leaseId) →
        ∃ item ∈ (q.poll topic group max vis ts).2, item.offset = l.offset) := by
  rw [Queue.poll_topics] at ht
  obtain ⟨t, htq, rfl⟩ := Option.map_eq_some_iff.mp ht
  by_cases hτ : τ = topic
  · subst hτ
    rw [if_pos rfl, pollTopic_fst] at hg
    obtain ⟨base, henter, ⟨hγ, hdone⟩ | ⟨rfl, g0, hentry, rfl, hdone⟩⟩ :=
      consumeTopic_group hreq hok htq hg
    · exact ⟨⟨base, henter, hdone⟩, fun h => absurd h.2 hγ⟩
    · refine ⟨⟨base, henter, fun o => pollGroup_done.trans (hdone o)⟩, fun _ id l hl hid => ?_⟩
      rw [Option.elim_some] at hentry
      rw [Queue.poll_items htq, pollTopic] at hid ⊢
      simp only [hentry] at hid ⊢
      rcases pollGroup_inFlight hl with ⟨item, hmem, -, rfl⟩ | ⟨hne, -⟩
      · exact ⟨item, hmem, rfl⟩
      · obtain ⟨item, hmem, hitem⟩ := List.mem_map.mp hid
        exact absurd hitem (hne item hmem)
  · rw [if_neg hτ] at hg
    have hc := hreq.not_consumer (γ := γ) fun h => hτ h.1.symm
    exact ⟨⟨_, enters_of_not_consumer hc htq hg, fun _ => Iff.rfl⟩, fun h => absurd h.1 hτ⟩

theorem swept_shape {t : TopicState} (h : TopicShape t) (now : Option Nat) :
    TopicShape (now.elim t (sweepAndReclaim t)) := by
  cases now with
  | none => exact h
  | some ts => exact h.run (show TopicOp.Pre t 0 (.sweep ts) from trivial)

theorem swept_nextOffset (t : TopicState) (now : Option Nat) :
    (now.elim t (sweepAndReclaim t)).nextOffset = t.nextOffset := by
  cases now with
  | none => rfl
  | some ts => exact sweepAndReclaim_nextOffset t ts

/-- A group after a commit: entered where `opens` says, and done besides
only with what is below the clamped offset. -/
theorem commit_group {q : Queue} (hq : q.Topics TopicShape) {req : AppRequest}
    {topic τ : TopicId} {group γ : GroupId} {offset : Offset} {now : Option Nat}
    (hreq : req.ConsumerOf topic group now) (hok : checkConsumer topic group = .ok ())
    {t' : TopicState} {g' : GroupState}
    (ht : (q.commit topic group offset now).topics.get? τ = some t')
    (hg : t'.groups.get? γ = some g') :
    ∃ base, q.Enters req τ γ base ∧ Grows base g'.Done
      fun o => topic = τ ∧ group = γ ∧ q.CommitsPast τ offset o := by
  rw [Queue.commit, Queue.updateTopic_topics] at ht
  obtain ⟨t, htq, rfl⟩ := Option.map_eq_some_iff.mp ht
  by_cases hτ : τ = topic
  · subst hτ
    rw [if_pos rfl, commitTopic_eq] at hg
    obtain ⟨base, henter, ⟨-, hdone⟩ | ⟨rfl, g0, hentry, rfl, hdone⟩⟩ :=
      consumeTopic_group hreq hok htq hg
    · exact ⟨base, henter, Grows.of_iff hdone⟩
    · have hshape := swept_shape (hq τ t htq) now
      have hw0 : g0.ackWatermark ≤ u64Max := by
        rcases groupEntry_eq_some hentry with ⟨-, hg0⟩ | ⟨-, rfl⟩
        · exact (hshape.watermark hg0).2
        · exact hshape.first_le.trans hshape.nextOffset_le
      refine ⟨base, henter, fun o ho => ?_⟩
      rw [swept_nextOffset] at *
      have hle := (min_le_right offset t.nextOffset).trans (hq τ t htq).nextOffset_le
      rw [GroupState.touch_done, GroupState.advanceWatermark_done hw0 hle ho, hdone]
      exact ⟨Or.inl, Or.imp id fun h => ⟨rfl, rfl, t, htq, h⟩⟩
  · rw [if_neg hτ] at hg
    have hc := hreq.not_consumer (γ := γ) fun h => hτ h.1.symm
    exact ⟨_, enters_of_not_consumer hc htq hg, Grows.of_iff fun _ => Iff.rfl⟩

/-! ## Produces -/

theorem produceTopic_fst (t : TopicState) (item : ProduceItem) :
    (produceTopic t item).1 = purgeRetained (produceAppended t item) item.tsMs := by
  unfold produceTopic produceAppended
  by_cases hp : item.producerId = ""
  · simp [hp]
  · cases hd : t.dedup.get? item.dedupKey with
    | none => simp [hp, hd, OrdMap.contains]
    | some o => simp [hp, hd, OrdMap.contains]

theorem produceAppended_groups (t : TopicState) (item : ProduceItem) :
    (produceAppended t item).groups = t.groups := by
  unfold produceAppended
  split_ifs
  · rfl
  · exact appendMessage_groups t item

theorem TopicShape.appended {t : TopicState} (h : TopicShape t) (item : ProduceItem) :
    TopicShape (produceAppended t item) := by
  unfold produceAppended
  split_ifs
  · exact h
  · exact h.append item

theorem produceOne_group {q : Queue} (hq : q.Topics TopicShape) {item : ProduceItem}
    {τ : TopicId} {γ : GroupId} {t' : TopicState} {g' : GroupState}
    (ht : (q.produceOne item).1.topics.get? τ = some t') (hg : t'.groups.get? γ = some g') :
    ∃ t g, q.topics.get? τ = some t ∧ t.groups.get? γ = some g ∧
      Grows g.Done g'.Done fun o =>
        item.topic = τ ∧ ∃ b, q.retentionBoundary item = some b ∧ o < b := by
  simp only [Queue.produceOne, Queue.putTopic_topics] at ht
  by_cases hτ : τ = item.topic
  · subst hτ
    rw [if_pos rfl] at ht
    obtain rfl := Option.some.inj ht
    rw [produceTopic_fst, purgeRetained_group, produceAppended_groups] at hg
    unfold Queue.topicOrDefault at hg
    cases htq : q.topics.get? item.topic with
    | none => rw [htq] at hg; cases hg
    | some t =>
        rw [htq, Option.getD_some] at hg
        obtain ⟨g, hgt, rfl⟩ := Option.map_eq_some_iff.mp hg
        refine ⟨t, g, rfl, hgt, fun o ho => ?_⟩
        have hshape := (hq _ t htq).appended item
        have hw := (hshape.watermark ((produceAppended_groups t item).symm ▸ hgt)).2
        simp only [TopicOp.groupRun]
        split_ifs with hb
        · rw [GroupState.advanceWatermark_done hw
            ((hshape.purgeBoundary_le item.tsMs).trans hshape.nextOffset_le) ho]
          refine ⟨Or.inl, Or.imp id fun h => ⟨trivial, _, ?_, h⟩⟩
          simp [Queue.retentionBoundary, Queue.topicOrDefault, htq, hb.1]
        · exact ⟨id, Or.inl⟩
  · rw [if_neg hτ] at ht
    exact ⟨t', g', ht, hg, Grows.of_iff fun _ => Iff.rfl⟩

theorem produceAll_group (items : List ProduceItem) {τ : TopicId} {γ : GroupId} :
    ∀ {q : Queue}, q.Topics TopicShape → ∀ {t' : TopicState} {g' : GroupState},
      (q.produceAll items).1.topics.get? τ = some t' → t'.groups.get? γ = some g' →
      ∃ t g, q.topics.get? τ = some t ∧ t.groups.get? γ = some g ∧
        Grows g.Done g'.Done (q.PurgesPast items τ) := by
  induction items with
  | nil => exact fun _ _ g' ht hg => ⟨_, g', ht, hg, Grows.of_iff fun _ => Iff.rfl⟩
  | cons item rest ih =>
      intro q hq t' g' ht hg
      have hq1 : (q.produceOne item).1.Topics TopicShape :=
        (produceOne_steps (show item ∈ AppRequest.items (.produceMany [item]) from
          List.mem_singleton.mpr rfl) q).shape hq
      obtain ⟨t1, g1, ht1, hg1, hrest⟩ := ih hq1 ht hg
      obtain ⟨t, g, htq, hgt, hhead⟩ := produceOne_group hq ht1 hg1
      refine ⟨t, g, htq, hgt, (hhead.trans hrest).mono ?_⟩
      rintro o (⟨hτ, b, hb, ho⟩ | ⟨pre, i, post, b, rfl, hτ, hb, ho⟩)
      · exact ⟨[], item, rest, b, rfl, hτ, hb, ho⟩
      · exact ⟨item :: pre, i, post, b, rfl, hτ, hb, ho⟩

/-! ## Every request -/

section Apply

variable {q : Queue} {req : AppRequest} {τ topic : TopicId} {γ group : GroupId}

theorem opens_of_rejected {now : Option Nat} {reason : String}
    (hreq : req.ConsumerOf topic group now) (herr : checkConsumer topic group = .error reason) :
    q.opens req τ γ = none := by
  by_cases h : topic = τ ∧ group = γ
  · obtain ⟨rfl, rfl⟩ := h
    unfold Queue.opens
    rw [herr]
    split <;> simp_all
  · exact Queue.opens_of_not_consumer (hreq.not_consumer h)

/-- A request that leaves the group as it was. -/
theorem enters_of_same {t : TopicState} {g : GroupState} (h : q.opens req τ γ = none)
    (ht : q.topics.get? τ = some t) (hg : t.groups.get? γ = some g) :
    ∃ base, q.Enters req τ γ base ∧ Grows base g.Done (q.DoneBy req τ γ) :=
  ⟨g.Done, Or.inr ⟨h, t, g, ht, hg, rfl⟩, Grows.of_iff fun _ => Iff.rfl⟩

/-- A request that creates the topic if need be, and sets something of it. -/
theorem putTopic_group {t' : TopicState} {g' : GroupState} {f : TopicState → TopicState}
    (hf : ∀ t, (f t).groups = t.groups) (hnone : req.consumerClock? τ γ = none)
    (ht : (q.putTopic topic (f (q.topicOrDefault topic))).topics.get? τ = some t')
    (hg : t'.groups.get? γ = some g') :
    ∃ base, q.Enters req τ γ base ∧ Grows base g'.Done (q.DoneBy req τ γ) := by
  have hopens : q.opens req τ γ = none := Queue.opens_of_not_consumer hnone
  rw [Queue.putTopic_topics] at ht
  split_ifs at ht with hτ
  · obtain rfl := Option.some.inj ht
    rw [hf, Queue.topicOrDefault, ← hτ] at hg
    cases htq : q.topics.get? τ with
    | none => rw [htq] at hg; cases hg
    | some t => rw [htq] at hg; exact enters_of_same hopens htq hg
  · exact enters_of_same hopens ht hg

/-- Acks of some leases by a request that polls nothing. -/
theorem acks_group (hq : q.Topics TopicShape) (ids : List LeaseId)
    (hnone : req.consumerClock? τ γ = none)
    (hby : topic = τ → group = γ → ∀ id ∈ ids, ∀ o, q.Holds τ γ id o → q.DoneBy req τ γ o)
    {t' : TopicState} {g' : GroupState}
    (ht : ((ids.foldl (fun q id => q.ack topic group id) q).reclaimTopic topic).topics.get? τ =
      some t')
    (hg : t'.groups.get? γ = some g') :
    ∃ base, q.Enters req τ γ base ∧ Grows base g'.Done (q.DoneBy req τ γ) := by
  obtain ⟨t1, ht1, hg1⟩ := reclaimTopic_group ht hg
  obtain ⟨t, g, htq, hgt, rfl⟩ := foldl_ack_group ids ht1 hg1
  refine ⟨_, enters_of_not_consumer hnone htq hgt, ?_⟩
  split_ifs with hτγ
  · refine (foldl_ackLease_grows _ ((hq _ _ htq).watermark hgt).2).mono ?_
    rintro o ⟨id, hid, l, hl, rfl⟩
    exact hby hτγ.1.symm hτγ.2.symm id hid _ ⟨t, g, l, htq, hgt, hl, rfl⟩
  · exact Grows.of_iff fun _ => Iff.rfl

/-- The poll, and then the acks of what it delivered. -/
theorem pollAuto_group (hq : q.Topics TopicShape) {max vis ts : Nat}
    (hreq : AppRequest.ConsumerOf (.pollAuto topic group max vis ts) topic group (some ts))
    (hok : checkConsumer topic group = .ok ()) {t' : TopicState} {g' : GroupState}
    (ht : (((q.poll topic group max vis ts).2.foldl (fun q item => q.ack topic group item.leaseId)
      (q.poll topic group max vis ts).1).reclaimTopic topic).topics.get? τ = some t')
    (hg : t'.groups.get? γ = some g') :
    ∃ base, q.Enters (.pollAuto topic group max vis ts) τ γ base ∧
      Grows base g'.Done (q.DoneBy (.pollAuto topic group max vis ts) τ γ) := by
  obtain ⟨t2, ht2, hg2⟩ := reclaimTopic_group ht hg
  rw [← List.foldl_map] at ht2
  obtain ⟨t1, g1, ht1, hg1, rfl⟩ := foldl_ack_group _ ht2 hg2
  obtain ⟨⟨base, henter, hdone⟩, hleases⟩ := poll_group hreq hok ht1 hg1
  have hpoll : Grows base g1.Done (q.DoneBy (.pollAuto topic group max vis ts) τ γ) :=
    Grows.of_iff hdone
  have hsteps : Steps (.pollAuto topic group max vis ts) q (q.poll topic group max vis ts).1 :=
    poll_steps (by simp [AppRequest.sweepClock?]) (by simp [AppRequest.pollOf?]) q
  have hw1 := (hsteps.shape hq _ _ ht1).watermark hg1
  refine ⟨base, henter, ?_⟩
  split_ifs with hτγ
  · refine (hpoll.trans (foldl_ackLease_grows _ hw1.2)).mono ?_
    rintro o (hby | ⟨id, hid, l, hl, rfl⟩)
    · exact hby
    · obtain ⟨item, hmem, hoff⟩ := hleases hτγ id l hl hid
      refine ⟨by simp [Queue.apply, hok], hτγ.1.symm, hτγ.2.symm, item, ?_, hoff⟩
      simpa [Queue.apply, hok, AppResponse.delivered] using hmem
  · exact hpoll

/-- After any request, a group is done with what it was done with when
the request found it, and with what the request made done. -/
theorem apply_group (hq : q.Topics TopicShape) {t' : TopicState} {g' : GroupState}
    (ht : (q.apply req).1.topics.get? τ = some t') (hg : t'.groups.get? γ = some g') :
    ∃ base, q.Enters req τ γ base ∧ Grows base g'.Done (q.DoneBy req τ γ) := by
  cases req with
  | createTopic topic =>
      simp only [Queue.apply] at ht
      split at ht
      · exact enters_of_same (Queue.opens_of_not_consumer rfl) ht hg
      · exact putTopic_group (f := id) (fun _ => rfl) rfl ht hg
  | setRateLimit topic rate burst =>
      simp only [Queue.apply] at ht
      split at ht
      · exact enters_of_same (Queue.opens_of_not_consumer rfl) ht hg
      · exact putTopic_group (f := fun t => { t with rateMilliPerSec := rate, burst := burst })
          (fun _ => rfl) rfl ht hg
  | setRetention topic cap age =>
      simp only [Queue.apply] at ht
      split at ht
      · exact enters_of_same (Queue.opens_of_not_consumer rfl) ht hg
      · exact putTopic_group
          (f := fun t => { t with retainMaxMessages := cap, retainMaxAgeMs := age })
          (fun _ => rfl) rfl ht hg
  | deleteTopic topic =>
      simp only [Queue.apply, OrdMap.get?_erase] at ht
      split_ifs at ht
      exact enters_of_same (Queue.opens_of_not_consumer rfl) ht hg
  | produce topic priority contentType payload producerId seq tsMs =>
      simp only [Queue.apply] at ht
      split at ht
      · exact enters_of_same (Queue.opens_of_not_consumer rfl) ht hg
      · rename_i hcheck
        obtain ⟨t, g, htq, hgt, hgrow⟩ := produceAll_group
          [⟨topic, priority, contentType, payload, producerId, seq, tsMs⟩] hq ht hg
        refine ⟨_, enters_of_not_consumer rfl htq hgt, hgrow.mono fun o ho => ⟨?_, ho⟩⟩
        simp [Queue.apply, hcheck]
  | produceMany items =>
      simp only [Queue.apply] at ht
      split at ht
      · exact enters_of_same (Queue.opens_of_not_consumer rfl) ht hg
      · rename_i hcheck
        obtain ⟨t, g, htq, hgt, hgrow⟩ := produceAll_group items hq ht hg
        refine ⟨_, enters_of_not_consumer rfl htq hgt, hgrow.mono fun o ho => ⟨?_, ho⟩⟩
        simp [Queue.apply, hcheck]
  | poll topic group max vis ts =>
      have hreq : AppRequest.ConsumerOf (.poll topic group max vis ts) topic group (some ts) :=
        fun _ _ => rfl
      simp only [Queue.apply] at ht
      split at ht
      · rename_i herr
        exact enters_of_same (opens_of_rejected hreq herr) ht hg
      · rename_i hok
        obtain ⟨⟨base, henter, hdone⟩, -⟩ := poll_group hreq hok ht hg
        exact ⟨base, henter, Grows.of_iff hdone⟩
  | pollAuto topic group max vis ts =>
      have hreq : AppRequest.ConsumerOf (.pollAuto topic group max vis ts) topic group (some ts) :=
        fun _ _ => rfl
      simp only [Queue.apply] at ht
      split at ht
      · rename_i herr
        exact enters_of_same (opens_of_rejected hreq herr) ht hg
      · rename_i hok
        exact pollAuto_group hq hreq hok ht hg
  | ack topic group leaseId =>
      refine acks_group hq [leaseId] rfl (fun hτ hγ id hid o ho => ?_) ht hg
      obtain rfl := List.mem_singleton.mp hid
      exact ⟨by simp [Queue.apply], hτ, hγ, ho⟩
  | ackMany topic group leaseIds =>
      refine acks_group hq leaseIds rfl (fun hτ hγ id hid o ho => ?_) ht hg
      exact ⟨by simp [Queue.apply], hτ, hγ, id, hid, ho⟩
  | nack topic group leaseId =>
      obtain ⟨t, g, htq, hgt, hsame⟩ := foldl_nack_group [leaseId] ht hg
      exact ⟨_, enters_of_not_consumer rfl htq hgt, Grows.of_iff hsame⟩
  | nackMany topic group leaseIds =>
      obtain ⟨t, g, htq, hgt, hsame⟩ := foldl_nack_group leaseIds ht hg
      exact ⟨_, enters_of_not_consumer rfl htq hgt, Grows.of_iff hsame⟩
  | commitOffset topic group offset =>
      have hreq : AppRequest.ConsumerOf (.commitOffset topic group offset) topic group none :=
        fun _ _ => rfl
      simp only [Queue.apply] at ht
      split at ht
      · rename_i herr
        exact enters_of_same (opens_of_rejected hreq herr) ht hg
      · rename_i hok
        obtain ⟨t1, ht1, hg1⟩ := reclaimTopic_group ht hg
        obtain ⟨base, henter, hgrow⟩ := commit_group hq hreq hok ht1 hg1
        exact ⟨base, henter, hgrow.mono fun o ho => ⟨by simp [Queue.apply, hok], ho⟩⟩
  | commitOffsetAt topic group offset ts =>
      have hreq : AppRequest.ConsumerOf (.commitOffsetAt topic group offset ts) topic group
          (some ts) := fun _ _ => rfl
      simp only [Queue.apply] at ht
      split at ht
      · rename_i herr
        exact enters_of_same (opens_of_rejected hreq herr) ht hg
      · rename_i hok
        obtain ⟨t1, ht1, hg1⟩ := reclaimTopic_group ht hg
        obtain ⟨base, henter, hgrow⟩ := commit_group hq hreq hok ht1 hg1
        exact ⟨base, henter, hgrow.mono fun o ho => ⟨by simp [Queue.apply, hok], ho⟩⟩

end Apply

theorem Queue.apply_poll {q : Queue} {τ : TopicId} {γ : GroupId} (hok : checkConsumer τ γ = .ok ())
    (max vis ts : Nat) : q.apply (.poll τ γ max vis ts) =
      ((q.poll τ γ max vis ts).1, .polled (q.poll τ γ max vis ts).2) := by
  simp only [Queue.apply, hok]

/-- A `PollAuto` polls, and then acks what it delivered. -/
theorem Queue.apply_pollAuto {q : Queue} {τ : TopicId} {γ : GroupId}
    (hok : checkConsumer τ γ = .ok ()) (max vis ts : Nat) :
    (q.apply (.pollAuto τ γ max vis ts)).2 = .polled (q.poll τ γ max vis ts).2 ∧
      ∃ ids, Steps (.ackMany τ γ ids) (q.poll τ γ max vis ts).1
        (q.apply (.pollAuto τ γ max vis ts)).1 := by
  simp only [Queue.apply, hok]
  refine ⟨trivial, (q.poll τ γ max vis ts).2.map (·.leaseId), ?_⟩
  refine Relation.ReflTransGen.trans (foldl_steps (fun item hi q' => ?_) _) (reclaim_steps ..)
  have hacks : AppRequest.Acks τ γ item.leaseId
      (.ackMany τ γ ((q.poll τ γ max vis ts).2.map (·.leaseId))) :=
    ⟨rfl, rfl, List.mem_map.mpr ⟨item, hi, rfl⟩⟩
  exact ack_steps hacks q'

/-- A delivering poll: what it hands out is what `Queue.poll` does, and
whatever it does besides is acking. -/
theorem delivered_poll {q0 : Queue} {req : AppRequest} {τ : TopicId} {γ : GroupId}
    {ts d : Nat} (hpoll : req.pollOf? τ γ = some (ts, d)) {item : Delivered}
    (hitem : item ∈ (q0.apply req).2.delivered) :
    checkConsumer τ γ = .ok () ∧ req.consumerClock? τ γ = some (some ts) ∧
      ∃ max vis, d = satAdd ts (min vis maxVisibilityMs) ∧
        (q0.apply req).2.delivered = (q0.poll τ γ max vis ts).2 ∧
        ∃ ids, Steps (.ackMany τ γ ids) (q0.poll τ γ max vis ts).1 (q0.apply req).1 := by
  have hclock := AppRequest.consumerClock?_of_pollOf? hpoll
  obtain ⟨max, vis, rfl | rfl, rfl⟩ := AppRequest.pollOf?_eq_some hpoll
  · cases hok : checkConsumer τ γ with
    | error reason => simp [Queue.apply, hok, AppResponse.delivered] at hitem
    | ok =>
        rw [Queue.apply_poll hok]
        exact ⟨rfl, hclock, max, vis, rfl, rfl, [], Relation.ReflTransGen.refl⟩
  · cases hok : checkConsumer τ γ with
    | error reason => simp [Queue.apply, hok, AppResponse.delivered] at hitem
    | ok =>
        obtain ⟨hitems, hacks⟩ := Queue.apply_pollAuto (q := q0) hok max vis ts
        exact ⟨rfl, hclock, max, vis, rfl, congrArg AppResponse.delivered hitems, hacks⟩

/-- The topic and group state a delivering poll works on. -/
theorem delivered_pollGroup {q : Queue} {τ : TopicId} {γ : GroupId} {max vis ts : Nat}
    {item : Delivered} (hitem : item ∈ (q.poll τ γ max vis ts).2) :
    ∃ t g0, q.topics.get? τ = some t ∧
      groupEntry (sweepAndReclaim t ts) γ (some ts) = some g0 ∧
      (q.poll τ γ max vis ts).2 = (pollGroup (sweepAndReclaim t ts).messages g0 max
        (min vis maxVisibilityMs) ts q.nextLeaseId).2.2 ∧
      (q.poll τ γ max vis ts).1.topics.get? τ = some (putGroup (sweepAndReclaim t ts) γ
        (pollGroup (sweepAndReclaim t ts).messages g0 max (min vis maxVisibilityMs) ts
          q.nextLeaseId).1) := by
  cases ht : q.topics.get? τ with
  | none => simp [Queue.poll, ht] at hitem
  | some t =>
      rw [Queue.poll_items ht, pollTopic] at hitem ⊢
      rw [Queue.poll_topics, ht, Option.map_some, if_pos rfl, pollTopic_fst, consumeTopic]
      simp only [Option.elim_some] at hitem ⊢
      cases hentry : groupEntry (sweepAndReclaim t ts) γ (some ts) with
      | none => simp [hentry] at hitem
      | some g0 => exact ⟨t, g0, rfl, hentry, rfl, rfl⟩

/-- The requests of a run, each with the state it is applied in. -/
def Queue.history (q : Queue) : List AppRequest → List (Queue × AppRequest)
  | [] => []
  | req :: rest => (q, req) :: Queue.history (q.apply req).1 rest

theorem Queue.history_append (q : Queue) (pre post : List AppRequest) :
    q.history (pre ++ post) = q.history pre ++ (q.run pre).history post := by
  induction pre generalizing q with
  | nil => rfl
  | cons req rest ih =>
      rw [List.cons_append, Queue.history, Queue.history, ih, Queue.run_cons, List.cons_append]

/-- `step` is the last step of the history that (re)creates group `γ`,
at watermark `w`; `since` are the steps after it. -/
def LastOpening (history : List (Queue × AppRequest)) (τ : TopicId) (γ : GroupId)
    (step : Queue × AppRequest) (since : List (Queue × AppRequest)) (w : Offset) : Prop :=
  (∃ before, history = before ++ step :: since) ∧ step.1.opens step.2 τ γ = some w ∧
    ∀ s ∈ since, s.1.opens s.2 τ γ = none

theorem LastOpening.snoc {history since : List (Queue × AppRequest)} {τ : TopicId}
    {γ : GroupId} {step s : Queue × AppRequest} {w : Offset}
    (h : LastOpening history τ γ step since w) (hs : s.1.opens s.2 τ γ = none) :
    LastOpening (history ++ [s]) τ γ step (since ++ [s]) w := by
  obtain ⟨⟨before, rfl⟩, hopen, hsince⟩ := h
  refine ⟨⟨before, by simp⟩, hopen, fun s' hs' => ?_⟩
  rcases List.mem_append.mp hs' with hs' | hs'
  · exact hsince s' hs'
  · rw [List.mem_singleton.mp hs', hs]

/-- Without a new creation of the group, what it is done with it was done
with before, or some request since gave a reason. -/
theorem done_since {q : Queue} {τ : TopicId} {γ : GroupId} {o : Offset} (ho : o < u64Max)
    {reqs : List AppRequest} (hq : q.Topics TopicShape)
    (hopen : ∀ s ∈ q.history reqs, s.1.opens s.2 τ γ = none) {t : TopicState} {g : GroupState}
    (ht : (q.run reqs).topics.get? τ = some t) (hg : t.groups.get? γ = some g)
    (hdone : g.Done o) :
    (∃ t g, q.topics.get? τ = some t ∧ t.groups.get? γ = some g ∧ g.Done o) ∨
      ∃ s ∈ q.history reqs, s.1.DoneBy s.2 τ γ o := by
  induction reqs generalizing q with
  | nil => exact Or.inl ⟨t, g, ht, hg, hdone⟩
  | cons req rest ih =>
      have hshape := (apply_steps q req).shape hq
      rcases ih hshape (fun s hs => hopen s (List.mem_cons_of_mem _ hs)) ht with
        ⟨t1, g1, ht1, hg1, hdone1⟩ | ⟨s, hs, hby⟩
      · have hnone := hopen _ (List.mem_cons_self ..)
        obtain ⟨base, ⟨w, hsome, -⟩ | ⟨-, t0, g0, ht0, hg0, rfl⟩, hgrow⟩ :=
          apply_group hq ht1 hg1
        · rw [hnone] at hsome
          cases hsome
        · exact ((hgrow o ho).2 hdone1).imp (fun h => ⟨t0, g0, ht0, hg0, h⟩)
            fun hby => ⟨_, List.mem_cons_self .., hby⟩
      · exact Or.inr ⟨s, List.mem_cons_of_mem _ hs, hby⟩

end HermesMq
