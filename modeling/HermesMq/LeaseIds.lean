import HermesMq.AckCommute
import HermesMq.QueueHealth

/-!
# Lease ids

One counter numbers the leases of all topics and groups. Each poll takes
its ids off the counter in delivery order (`apply_leaseIds`), so along a
run the ids handed out increase (`leaseIds_sublist`), and deleting a topic
or a group gives none of them back. Until the counter runs out every lease
has an id of its own, and the two lease maps of a group say the same
(`run_numbered`).

An id that is not in flight in the group it is sent for is inert: acking or
nacking it leaves every group as it was, and the reclaiming that follows an
ack drops only messages every group of the topic is past. A group that the
topic does not hold yet may lose them (`stale_ack_reclaims`).
-/

namespace HermesMq

/-! ## Ids are taken off the counter -/

/-- The counter only grows. -/
theorem Steps.nextLease_le {req : AppRequest} {q q' : Queue} (h : Steps req q q')
    (hlt : q'.nextLeaseId < u64Max) :
    q.nextLeaseId < u64Max ∧ q.nextLeaseId ≤ q'.nextLeaseId := by
  induction h with
  | refl => exact ⟨hlt, le_rfl⟩
  | @tail b c _ hstep ih =>
      obtain ⟨op, -, -, rfl⟩ := hstep
      have hone : b.nextLeaseId < u64Max ∧ b.nextLeaseId ≤ (op.run b).nextLeaseId := by
        cases op with
        | create τ => exact ⟨hlt, le_rfl⟩
        | delete τ => exact ⟨hlt, le_rfl⟩
        | topic τ op => exact TopicOp.le_nextLease op hlt
      exact ⟨(ih hone.1).1, (ih hone.1).2.trans hone.2⟩

theorem run_nextLease_lt {reqs : List AppRequest} {q : Queue}
    (hlt : (q.run reqs).nextLeaseId < u64Max) : q.nextLeaseId < u64Max := by
  induction reqs generalizing q with
  | nil => exact hlt
  | cons req rest ih => exact ((apply_steps q req).nextLease_le (ih hlt)).1

/-- The ids of the leases a poll takes are the next ones of the counter;
those of offsets without a message are used up but not handed out. -/
theorem leaseChosen_ids (messages : OrdMap Offset Message) (d : Nat) :
    ∀ (l : List Ranked) (g : GroupState) (n : LeaseId),
      (leaseChosen messages d l g n).2.1 < u64Max →
      (leaseChosen messages d l g n).2.1 = n + l.length ∧
      ((leaseChosen messages d l g n).2.2.map (·.leaseId)).Sublist (List.range' n l.length) := by
  intro l
  induction l with
  | nil =>
      intro g n _
      exact ⟨rfl, List.Sublist.slnil⟩
  | cons x rest ih =>
      intro g n hlt
      simp only [leaseChosen] at hlt ⊢
      obtain ⟨hnext, hids⟩ := ih (g.takeLease n x.2 d) (satAdd n 1) hlt
      have hsucc : satAdd n 1 = n + 1 := by
        have hle : satAdd n 1 < u64Max := (Nat.le_add_right _ _).trans_lt (hnext ▸ hlt)
        unfold satAdd at hle ⊢
        omega
      rw [hsucc] at hnext hids ⊢
      refine ⟨hnext.trans (by rw [List.length_cons, Nat.add_assoc, Nat.add_comm 1]), ?_⟩
      rw [List.length_cons, List.range'_succ, List.map_append]
      cases hm : messages.get? x.2 with
      | none => exact hids.cons n
      | some m => exact hids.cons_cons n

theorem pollTopic_ids {t : TopicState} {γ : GroupId} {max vis ts : Nat} {n : LeaseId}
    (hlt : (pollTopic t γ max vis ts n).2.1 < u64Max) :
    ∃ k, (pollTopic t γ max vis ts n).2.1 = n + k ∧
      ((pollTopic t γ max vis ts n).2.2.map (·.leaseId)).Sublist (List.range' n k) := by
  unfold pollTopic at hlt ⊢
  cases hentry : groupEntry (sweepAndReclaim t ts) γ (some ts) with
  | none =>
      simp only [hentry]
      exact ⟨0, rfl, List.Sublist.slnil⟩
  | some g0 =>
      simp only [hentry, pollGroup] at hlt ⊢
      split_ifs at hlt ⊢
      · exact ⟨0, rfl, List.Sublist.slnil⟩
      · exact ⟨_, leaseChosen_ids _ _ _ _ _ hlt⟩

theorem poll_ids {q : Queue} {τ : TopicId} {γ : GroupId} {max vis ts : Nat}
    (hlt : (q.poll τ γ max vis ts).1.nextLeaseId < u64Max) :
    ∃ k, (q.poll τ γ max vis ts).1.nextLeaseId = q.nextLeaseId + k ∧
      ((q.poll τ γ max vis ts).2.map (·.leaseId)).Sublist (List.range' q.nextLeaseId k) := by
  unfold Queue.poll at hlt ⊢
  cases ht : q.topics.get? τ with
  | none => exact ⟨0, rfl, List.Sublist.slnil⟩
  | some t =>
      simp only [ht] at hlt ⊢
      exact pollTopic_ids hlt

@[simp] theorem Queue.updateTopic_nextLeaseId (q : Queue) (τ : TopicId)
    (f : TopicState → TopicState) : (q.updateTopic τ f).nextLeaseId = q.nextLeaseId := by
  rw [Queue.updateTopic_eq]

/-- Only the two polls deliver, and nothing after the poll itself touches
the counter. -/
theorem apply_delivered (q : Queue) (req : AppRequest) :
    (q.apply req).2.delivered = [] ∨ ∃ τ γ max vis ts,
      (q.apply req).2.delivered = (q.poll τ γ max vis ts).2 ∧
      (q.apply req).1.nextLeaseId = (q.poll τ γ max vis ts).1.nextLeaseId := by
  cases req with
  | poll τ γ max vis ts =>
      simp only [Queue.apply]
      cases checkConsumer τ γ with
      | error reason => exact Or.inl rfl
      | ok u => exact Or.inr ⟨τ, γ, max, vis, ts, rfl, rfl⟩
  | pollAuto τ γ max vis ts =>
      simp only [Queue.apply]
      cases checkConsumer τ γ with
      | error reason => exact Or.inl rfl
      | ok u =>
          refine Or.inr ⟨τ, γ, max, vis, ts, rfl, ?_⟩
          simp only [Queue.reclaimTopic, Queue.ack, Queue.foldl_updateTopic,
            Queue.updateTopic_nextLeaseId]
  | createTopic τ => simp only [Queue.apply]; cases q.checkTopic τ <;> exact Or.inl rfl
  | setRateLimit τ rate burst =>
      simp only [Queue.apply]; cases q.checkTopic τ <;> exact Or.inl rfl
  | setRetention τ cap age => simp only [Queue.apply]; cases q.checkTopic τ <;> exact Or.inl rfl
  | produce τ priority contentType payload producerId seq ts =>
      simp only [Queue.apply]
      split <;> exact Or.inl rfl
  | produceMany items => simp only [Queue.apply]; cases q.checkProduce items <;> exact Or.inl rfl
  | commitOffset τ γ o => simp only [Queue.apply]; cases checkConsumer τ γ <;> exact Or.inl rfl
  | commitOffsetAt τ γ o ts =>
      simp only [Queue.apply]; cases checkConsumer τ γ <;> exact Or.inl rfl
  | deleteTopic τ => exact Or.inl rfl
  | ack τ γ id => exact Or.inl rfl
  | ackMany τ γ ids => exact Or.inl rfl
  | nack τ γ id => exact Or.inl rfl
  | nackMany τ γ ids => exact Or.inl rfl

/-- Whatever the request, it delivers the next ids of the counter, in order. -/
theorem apply_leaseIds (q : Queue) (req : AppRequest)
    (hlt : (q.apply req).1.nextLeaseId < u64Max) :
    ∃ k, (q.apply req).1.nextLeaseId = q.nextLeaseId + k ∧
      ((q.apply req).2.delivered.map (·.leaseId)).Sublist (List.range' q.nextLeaseId k) := by
  rcases apply_delivered q req with hnone | ⟨τ, γ, max, vis, ts, hitems, hnext⟩
  · obtain ⟨k, hk⟩ := Nat.exists_eq_add_of_le ((apply_steps q req).nextLease_le hlt).2
    rw [hnone]
    exact ⟨k, hk, List.nil_sublist _⟩
  · rw [hnext] at hlt ⊢
    rw [hitems]
    exact poll_ids hlt

/-- The ids a request delivers: new ones, each once. -/
theorem apply_ids_fresh {q : Queue} {req : AppRequest}
    (hlt : (q.apply req).1.nextLeaseId < u64Max) :
    (∀ x ∈ (q.apply req).2.delivered, q.nextLeaseId ≤ x.leaseId ∧
      x.leaseId < (q.apply req).1.nextLeaseId) ∧
    ((q.apply req).2.delivered.map (·.leaseId)).Nodup := by
  obtain ⟨k, hk, hsub⟩ := apply_leaseIds q req hlt
  refine ⟨fun x hx => ?_, hsub.nodup (List.nodup_range' ..)⟩
  rw [hk]
  exact List.mem_range'_1.mp (hsub.subset (List.mem_map_of_mem hx))

/-- The ids of all leases a run delivers, in the order of delivery. -/
def Queue.leaseIds (q : Queue) (reqs : List AppRequest) : List LeaseId :=
  (q.history reqs).flatMap fun s => (s.1.apply s.2).2.delivered.map (·.leaseId)

/-- A run delivers an increasing selection of the ids its counter passes. -/
theorem leaseIds_sublist {reqs : List AppRequest} {q : Queue}
    (hlt : (q.run reqs).nextLeaseId < u64Max) :
    ∃ k, (q.run reqs).nextLeaseId = q.nextLeaseId + k ∧
      (q.leaseIds reqs).Sublist (List.range' q.nextLeaseId k) := by
  induction reqs generalizing q with
  | nil => exact ⟨0, rfl, List.Sublist.slnil⟩
  | cons req rest ih =>
      obtain ⟨k, hk, hsub⟩ := apply_leaseIds q req (run_nextLease_lt hlt)
      obtain ⟨m, hm, hrest⟩ := ih hlt
      refine ⟨k + m, by rw [Queue.run_cons, hm, hk, Nat.add_assoc], ?_⟩
      rw [← List.range'_append_1, Queue.leaseIds, Queue.history, List.flatMap_cons]
      exact hsub.append (hk ▸ hrest)

theorem leaseIds_increasing {reqs : List AppRequest} {q : Queue}
    (hlt : (q.run reqs).nextLeaseId < u64Max) : (q.leaseIds reqs).Pairwise (· < ·) := by
  obtain ⟨k, -, hsub⟩ := leaseIds_sublist hlt
  exact List.Pairwise.sublist hsub (List.pairwise_lt_range' ..)

/-! ## Leases with ids of their own -/

namespace GroupState

/-- Every leased offset has its lease in flight, under an id the counter
has passed. -/
structure Numbered (n : LeaseId) (g : GroupState) : Prop where
  backed : g.LeasesBacked
  ids : ∀ {id l}, g.inFlight.get? id = some l → id < n

variable {n n' : LeaseId} {g g' : GroupState}

theorem Numbered.mono (h : g.Numbered n) (hn : n ≤ n') : g.Numbered n' :=
  ⟨h.backed, fun hid => (h.ids hid).trans_le hn⟩

theorem Numbered.of_maps (h : g.Numbered n) (hi : g'.inFlight = g.inFlight)
    (hl : g'.leasedOffsets = g.leasedOffsets) : g'.Numbered n :=
  ⟨h.backed.of_maps hi hl, fun hid => h.ids (hi ▸ hid)⟩

theorem Numbered.dropLeases (h : g.Numbered n) (p : Lease → Bool) :
    (g.dropLeases p).Numbered n := by
  refine ⟨LeasesBacked.dropLeases h.backed p, fun hid => ?_⟩
  rw [dropLeases_inFlight] at hid
  exact h.ids (Option.filter_eq_some_iff.mp hid).1

theorem Numbered.removeLease (h : g.Numbered n) (id : LeaseId) :
    (g.removeLease id).Numbered n := by
  refine ⟨LeasesBacked.removeLease h.backed id, fun hid => ?_⟩
  rw [removeLease_inFlight] at hid
  split_ifs at hid
  exact h.ids hid

theorem Numbered.takeLease (h : g.Numbered n) (o : Offset) (d : Nat) :
    (g.takeLease n o d).Numbered (n + 1) := by
  have hfree : g.inFlight.get? n = none := by
    cases hn : g.inFlight.get? n with
    | none => rfl
    | some l => exact absurd (h.ids hn) (lt_irrefl n)
  refine ⟨LeasesBacked.takeLease h.backed o d hfree, fun {id l} hid => ?_⟩
  rw [GroupState.takeLease, OrdMap.get?_insert] at hid
  split_ifs at hid with heq
  · exact heq ▸ Nat.lt_succ_self n
  · exact (h.ids hid).trans (Nat.lt_succ_self n)

theorem Numbered.ackLease (h : g.Numbered n) (id : LeaseId) : (g.ackLease id).Numbered n := by
  unfold GroupState.ackLease
  split
  · exact h
  · exact (h.removeLease id).of_maps (markAcked_inFlight ..) (markAcked_leasedOffsets ..)

theorem Numbered.advanceWatermark (h : g.Numbered n) (upto : Offset) :
    (g.advanceWatermark upto).Numbered n := by
  have hraise : (g.raise (max g.ackWatermark upto)).Numbered n := h.of_maps rfl rfl
  rw [advanceWatermark_eq]
  exact (hraise.dropLeases _).of_maps rfl rfl

end GroupState

/-- The groups of a topic have numbered leases, until the lease counter
runs out. -/
def TopicNumbered (n : LeaseId) (t : TopicState) : Prop :=
  n < u64Max → ∀ γ g, t.groups.get? γ = some g → g.Numbered n

theorem TopicOp.groupRun_numbered {t : TopicState} {n : LeaseId} {op : TopicOp}
    (hpre : op.Pre t n) (hn : n < u64Max) {γ : GroupId} {g : GroupState} (h : g.Numbered n) :
    (op.groupRun t γ g).Numbered (op.nextLease n) := by
  have hle := op.nextLease_ge hn
  have hstep := op.groupStep t γ g
  generalize op.groupRun t γ g = g' at hstep ⊢
  cases hstep with
  | same => exact h.mono hle
  | purge now => exact h.advanceWatermark _
  | sweep now => exact h.of_maps (by simp) (by simp)
  | beginPoll ts => exact (h.dropLeases _).of_maps rfl rfl
  | lease id o d =>
      obtain ⟨rfl, -⟩ := hpre
      rw [TopicOp.nextLease, satAdd_one_of_lt hn]
      exact h.takeLease o d
  | ack id => exact h.ackLease id
  | nack id => exact h.removeLease id
  | commit upto now => exact (h.advanceWatermark upto).of_maps (by simp) (by simp)

theorem TopicNumbered.counter {n : LeaseId} {t : TopicState} (h : TopicNumbered n t)
    (op : TopicOp) : TopicNumbered (op.nextLease n) t := fun hn γ g hg =>
  (h (op.le_nextLease hn).1 γ g hg).mono (op.le_nextLease hn).2

theorem TopicNumbered.run {n : LeaseId} {t : TopicState} (h : TopicNumbered n t) {op : TopicOp}
    (hpre : op.Pre t n) : TopicNumbered (op.nextLease n) (op.run t) := by
  intro hn γ g' hg'
  have hlt := (op.le_nextLease hn).1
  rcases TopicOp.group_of_run hpre hg' with ⟨g, hg, rfl⟩ | ⟨-, now, rfl, rfl⟩
  · exact TopicOp.groupRun_numbered hpre hlt (h hlt γ g hg)
  · exact ⟨nofun, nofun⟩

theorem run_numbered (reqs : List AppRequest) : (({} : Queue).run reqs).TopicsAt TopicNumbered :=
  Queue.TopicsAt.run (fun _ _ _ _ hg => by cases hg) (fun _ op _ h => h.counter op)
    (fun _ _ _ h hpre => h.run hpre) (Queue.topicsAt_empty _) reqs

/-! ## Ids not in flight are inert -/

/-- The leases an ack or nack is sent for. -/
def AppRequest.settles? : AppRequest → Option (TopicId × GroupId × List LeaseId)
  | .ack topic group leaseId => some (topic, group, [leaseId])
  | .ackMany topic group leaseIds => some (topic, group, leaseIds)
  | .nack topic group leaseId => some (topic, group, [leaseId])
  | .nackMany topic group leaseIds => some (topic, group, leaseIds)
  | _ => none

section Stale

variable {q : Queue} {τ : TopicId} {γ : GroupId}

/-- An update that ignores groups not holding lease `id` ignores a queue
whose group does not. -/
theorem updateTopic_stale {id : LeaseId} {f : GroupState → GroupState}
    (hf : ∀ g, g.inFlight.get? id = none → f g = g) (hstale : ∀ o, ¬q.Holds τ γ id o) :
    q.updateTopic τ (updateGroup · γ f) = q := by
  cases ht : q.topics.get? τ with
  | none => exact Queue.updateTopic_of_none ht _
  | some t =>
      have hsame : updateGroup t γ f = t := by
        unfold updateGroup
        cases hg : t.groups.get? γ with
        | none => rfl
        | some g =>
            have hnone : g.inFlight.get? id = none := by
              cases hl : g.inFlight.get? id with
              | none => rfl
              | some l => exact absurd ⟨t, g, l, ht, hg, hl, rfl⟩ (hstale l.offset)
            simp only [hf g hnone, putGroup_self hg]
      rw [Queue.updateTopic_of_some ht, hsame, Queue.putTopic_self ht]

theorem foldl_stale {ids : List LeaseId} {f : LeaseId → GroupState → GroupState}
    (hf : ∀ id g, g.inFlight.get? id = none → f id g = g)
    (hstale : ∀ id ∈ ids, ∀ o, ¬q.Holds τ γ id o) :
    ids.foldl (fun q id => q.updateTopic τ (updateGroup · γ (f id))) q = q := by
  induction ids with
  | nil => rfl
  | cons id rest ih =>
      rw [List.forall_mem_cons] at hstale
      rw [List.foldl_cons, updateTopic_stale (hf id) hstale.1]
      exact ih hstale.2

/-- Settling leases that are not in flight does nothing, but for the
reclaiming after an ack. -/
theorem apply_stale {req : AppRequest} {ids : List LeaseId}
    (hreq : req.settles? = some (τ, γ, ids)) (hstale : ∀ id ∈ ids, ∀ o, ¬q.Holds τ γ id o) :
    (q.apply req).1 = q ∨ (q.apply req).1 = q.reclaimTopic τ := by
  have hack : ∀ id g, g.inFlight.get? id = none → GroupState.ackLease g id = g := by
    intro id g h
    rw [GroupState.ackLease, h]
  have hnack : ∀ id g, g.inFlight.get? id = none → GroupState.removeLease g id = g := by
    intro id g h
    rw [GroupState.removeLease, h]
  have hacks := foldl_stale (f := fun id g => g.ackLease id) hack hstale
  have hnacks := foldl_stale (f := fun id g => g.removeLease id) hnack hstale
  cases req <;> cases hreq
  case ack id => exact Or.inr (congrArg (Queue.reclaimTopic · τ) hacks)
  case ackMany => exact Or.inr (congrArg (Queue.reclaimTopic · τ) hacks)
  case nack id => exact Or.inl hnacks
  case nackMany => exact Or.inl hnacks

/-- Reclaiming a topic leaves all groups, and what is ahead of each. -/
theorem reclaimTopic_keeps (hq : q.Topics TopicShape) {σ : TopicId} {t : TopicState}
    (ht : q.topics.get? σ = some t) :
    ∃ t', (q.reclaimTopic τ).topics.get? σ = some t' ∧ t'.groups = t.groups ∧
      ∀ δ g, t.groups.get? δ = some g →
        ∀ o, g.ackWatermark ≤ o → t'.messages.get? o = t.messages.get? o := by
  rw [Queue.reclaimTopic, Queue.updateTopic_topics, ht]
  refine ⟨_, rfl, ?_⟩
  split_ifs
  · refine ⟨reclaim_groups_of_small ((hq σ t ht).size_le.trans (by decide)), ?_⟩
    intro δ g hg o ho
    exact reclaim_above hg ho
  · exact ⟨rfl, fun _ _ _ _ _ => rfl⟩

end Stale

/-- Along a run whose lease counter stays within the `maxCounter` of `validate`,
no lease id is delivered twice and later ids are larger. In every reachable
state, settling leases that are not in flight in the group they are sent
for changes no group, and every message at or above a group's watermark,
which is all it can still be delivered, stays. -/
theorem lease_ids_unique_stale_inert (reqs : List AppRequest) :
    ((({} : Queue).run reqs).nextLeaseId ≤ maxCounter →
      (({} : Queue).leaseIds reqs).Pairwise (· < ·)) ∧
    ∀ req τ γ ids, req.settles? = some (τ, γ, ids) →
      (∀ id ∈ ids, ∀ o, ¬(({} : Queue).run reqs).Holds τ γ id o) →
      ∀ σ t, (({} : Queue).run reqs).topics.get? σ = some t →
        ∃ t', ((({} : Queue).run reqs).apply req).1.topics.get? σ = some t' ∧
          t'.groups = t.groups ∧
          ∀ δ g, t.groups.get? δ = some g →
            ∀ o, g.ackWatermark ≤ o → t'.messages.get? o = t.messages.get? o := by
  constructor
  · intro hbound
    exact leaseIds_increasing (hbound.trans_lt (by decide))
  · intro req τ γ ids hreq hstale σ t ht
    rcases apply_stale hreq hstale with hsame | hreclaim
    · rw [hsame]
      exact ⟨t, ht, rfl, fun _ _ _ _ _ => rfl⟩
    · rw [hreclaim]
      exact reclaimTopic_keeps (run_shape reqs) ht

/-- A topic polled, deleted, and produced to and polled again. -/
def rebornTopic : List AppRequest :=
  [.produce "t" .default .raw [1] "" 0 1, .poll "t" "g" 1 1000 2, .deleteTopic "t",
    .produce "t" .default .raw [2] "" 0 3, .poll "t" "g" 1 1000 4]

theorem lease_ids_unique_stale_inert_reborn :
    (({} : Queue).leaseIds rebornTopic = [0, 1] ∧
      (({} : Queue).leaseIds rebornTopic).Pairwise (· < ·)) ∧
    ∃ t t', (({} : Queue).run rebornTopic).topics.get? "t" = some t ∧
      ((({} : Queue).run rebornTopic).apply (.ack "t" "g" 0)).1.topics.get? "t" = some t' ∧
      t'.groups = t.groups := by
  have hall := lease_ids_unique_stale_inert rebornTopic
  refine ⟨⟨by decide, hall.1 (by decide)⟩, ?_⟩
  have hgone : ((({} : Queue).run rebornTopic).topics.get? "t").bind (fun t =>
      (t.groups.get? "g").bind (·.inFlight.get? 0)) = none := by decide
  have hstale : ∀ id ∈ [0], ∀ o, ¬(({} : Queue).run rebornTopic).Holds "t" "g" id o := by
    rintro id hid o ⟨t, g, l, ht, hg, hl, -⟩
    obtain rfl := List.mem_singleton.mp hid
    rw [ht, Option.bind_some, hg, Option.bind_some, hl] at hgone
    cases hgone
  obtain ⟨t, ht⟩ := Option.isSome_iff_exists.mp
    (show ((({} : Queue).run rebornTopic).topics.get? "t").isSome by decide)
  obtain ⟨t', ht', hgroups, -⟩ := hall.2 (.ack "t" "g" 0) "t" "g" [0] rfl hstale "t" t ht
  exact ⟨t, t', ht, ht', hgroups⟩

/-- Three messages, all leased; the two later ones are acked, and then
retention drops the first with its lease. -/
def passedByRetention : List AppRequest :=
  [.produce "t" .default .raw [1] "p" 1 1, .produce "t" .default .raw [2] "" 0 1,
    .produce "t" .default .raw [3] "" 0 1, .poll "t" "g" 3 1000 2, .ack "t" "g" 1,
    .ack "t" "g" 2, .setRetention "t" 2 0, .produce "t" .default .raw [1] "p" 1 3]

/-- The first lease is gone and two messages are retained, which a new group
would be given. An ack of the first lease changes no group, but it reclaims
both. -/
theorem stale_ack_reclaims :
    (∀ o, ¬(({} : Queue).run passedByRetention).Holds "t" "g" 0 o) ∧
    ((({} : Queue).run passedByRetention).topics.get? "t").map (·.messages.keys) = some [1, 2] ∧
    (({} : Queue).run passedByRetention).hasDeliverable "t" "h" 4 = true ∧
    ((({} : Queue).run passedByRetention).apply (.ack "t" "g" 0)).1.hasDeliverable "t" "h" 4 =
      false := by
  have hgone : ((({} : Queue).run passedByRetention).topics.get? "t").bind (fun t =>
      (t.groups.get? "g").bind (·.inFlight.get? 0)) = none := by decide
  refine ⟨?_, by decide, by decide, by decide⟩
  rintro o ⟨t, g, l, ht, hg, hl, -⟩
  rw [ht, Option.bind_some, hg, Option.bind_some, hl] at hgone
  cases hgone

end HermesMq
