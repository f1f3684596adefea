import HermesMq.QueueHistory

/-!
# Which groups expire

A consumer that finds nothing to take leaves no trace: the poll loops of
the client port write a poll to the log only when `hasDeliverable` says
that the group has something to take. The idle sweep, which runs inside
the written polls of every group of the topic, goes by written activity.

`ClientEvent` is what reaches the leader, `ClientEvent.written` what it
writes. A group is kept as long as its *written* activity is recent at
every sweep (`written_group_kept`); polling alone does not keep it
(`polling_group_expired`).
-/

namespace HermesMq

/-! ## The client port -/

/-- What reaches the leader: a request it writes as it is, or one round of
a poll loop. `grant` is what the prefetch window and the rate limiter let
the round ask for, if anything. -/
inductive ClientEvent where
  | request (req : AppRequest)
  | poll (topic : TopicId) (group : GroupId) (auto : Bool) (grant : Option Nat)
      (visibilityTimeoutMs nowMs : Nat)
deriving DecidableEq

namespace ClientEvent

/-- The request the leader writes to the log. -/
def written (q : Queue) : ClientEvent → Option AppRequest
  | .request req => some req
  | .poll topic group auto grant visibilityTimeoutMs nowMs =>
      if q.hasDeliverable topic group nowMs then
        grant.map fun max =>
          if auto then .pollAuto topic group max visibilityTimeoutMs nowMs
          else .poll topic group max visibilityTimeoutMs nowMs
      else none

/-- The clocks an event carries. -/
def clocks : ClientEvent → List Nat
  | .request (.poll _ _ _ _ tsMs) => [tsMs]
  | .request (.pollAuto _ _ _ _ tsMs) => [tsMs]
  | .request (.commitOffsetAt _ _ _ tsMs) => [tsMs]
  | .request req => req.items.map (·.tsMs)
  | .poll _ _ _ _ _ nowMs => [nowMs]

/-- A client-level poll of group `γ` on topic `τ`, written or not. -/
def pollTime? (τ : TopicId) (γ : GroupId) : ClientEvent → Option Nat
  | .poll topic group _ _ _ nowMs => if topic = τ ∧ group = γ then some nowMs else none
  | .request _ => none

end ClientEvent

namespace Queue

def onEvent (q : Queue) (e : ClientEvent) : Queue :=
  (e.written q).elim q fun req => (q.apply req).1

/-- The requests a list of events writes. -/
def writes (q : Queue) : List ClientEvent → List AppRequest
  | [] => []
  | e :: rest => (e.written q).toList ++ (q.onEvent e).writes rest

/-- The state after a list of events. -/
def onEvents (q : Queue) (events : List ClientEvent) : Queue := q.run (q.writes events)

theorem onEvent_eq_run (q : Queue) (e : ClientEvent) :
    q.onEvent e = q.run (e.written q).toList := by
  unfold onEvent
  cases e.written q <;> rfl

@[simp] theorem onEvents_cons (q : Queue) (e : ClientEvent) (rest : List ClientEvent) :
    q.onEvents (e :: rest) = (q.onEvent e).onEvents rest := by
  rw [onEvents, onEvents, writes, run_append, ← onEvent_eq_run]

end Queue

/-! ## Activity -/

/-- Every clock of an event is within the idle span of the last activity
before it. `last` is the time of the last activity so far, `activity`
says which events count as one and `due` which clocks are looked at. -/
def ActiveWithin (due : Queue → ClientEvent → List Nat)
    (activity : Queue → ClientEvent → Option Nat) : Nat → Queue → List ClientEvent → Prop
  | _, _, [] => True
  | last, q, e :: rest =>
      (∀ ts ∈ due q e, ts ≤ last + groupIdleExpireMs) ∧
        ActiveWithin due activity (max last ((activity q e).getD 0)) (q.onEvent e) rest

/-- From time `last` on, a client-level poll of the group comes at least
once in every idle span. -/
def KeepsPolling (τ : TopicId) (γ : GroupId) : Nat → Queue → List ClientEvent → Prop :=
  ActiveWithin (fun _ e => e.clocks) fun _ e => e.pollTime? τ γ

/-- At every idle sweep of the topic, the group's last written request that
carries a clock (a poll that found something to take, or a stamped commit)
is within the idle span. -/
def KeepsWriting (τ : TopicId) (γ : GroupId) : Nat → Queue → List ClientEvent → Prop :=
  ActiveWithin (fun q e => ((e.written q).bind (·.sweepClock? τ)).toList)
    fun q e => ((e.written q).bind (·.consumerClock? τ γ)).join

/-- Group `γ` exists and was active at or after `c`. -/
def ActiveSince (γ : GroupId) (c : Nat) (t : TopicState) : Prop :=
  ∃ g, t.groups.get? γ = some g ∧ c ≤ g.lastActiveMs

section Kept

variable {τ : TopicId} {γ : GroupId} {c : Nat}

theorem ActiveSince.mono {c' : Nat} {t : TopicState} (h : ActiveSince γ c t) (hle : c' ≤ c) :
    ActiveSince γ c' t := by
  obtain ⟨g, hg, hact⟩ := h
  exact ⟨g, hg, hle.trans hact⟩

theorem ActiveSince.run {t : TopicState} (ht : TopicShape t) {n : LeaseId} {op : TopicOp}
    (hpre : op.Pre t n) (hsweep : ∀ now, op = .sweep now → now ≤ c + groupIdleExpireMs)
    (h : ActiveSince γ c t) : ActiveSince γ c (op.run t) := by
  obtain ⟨g, hg, hact⟩ := h
  rcases TopicOp.group_run hpre ht.size_le_threshold hg with hrun | ⟨now, rfl, hidle, -⟩
  · exact ⟨_, hrun, hact.trans (TopicOp.le_groupRun_lastActiveMs t γ g op)⟩
  · rw [keptBySweep_of_active hact (hsweep now rfl)] at hidle
    cases hidle

/-- The sweep a consumer request starts with keeps an active group. -/
theorem ActiveSince.swept {t : TopicState} (ht : TopicShape t) {now : Option Nat}
    (hnow : ∀ ts, now = some ts → ts ≤ c + groupIdleExpireMs) (h : ActiveSince γ c t) :
    ActiveSince γ c (now.elim t (sweepAndReclaim t)) := by
  cases now with
  | none => exact h
  | some ts =>
      refine h.run ht (show TopicOp.Pre t 0 (.sweep ts) from trivial) fun now hop => ?_
      cases hop
      exact hnow ts rfl

theorem Steps.active {req : AppRequest} (hdel : req ≠ .deleteTopic τ)
    (hsweep : ∀ ts, req.sweepClock? τ = some ts → ts ≤ c + groupIdleExpireMs) {q q' : Queue}
    (h : Steps req q q') (hq : q.TopicHas τ (ActiveSince γ c)) :
    q'.TopicHas τ (ActiveSince γ c) := by
  refine h.topicHas hdel (fun t n op ht hpre hallow hact => hact.run ht hpre ?_) hq
  rintro now rfl
  exact hsweep now hallow

theorem AppRequest.sweepClock_of_consumer {req : AppRequest} {ts : Nat}
    (h : req.consumerClock? τ γ = some (some ts)) : req.sweepClock? τ = some ts := by
  cases req with
  | poll topic group max vis tsMs | pollAuto topic group max vis tsMs
  | commitOffsetAt topic group offset tsMs =>
      rw [AppRequest.consumerClock?] at h
      split_ifs at h with heq
      rw [← Option.some.inj h]
      exact if_pos heq.1
  | commitOffset topic group offset =>
      rw [AppRequest.consumerClock?] at h
      split_ifs at h
      cases Option.some.inj h
  | _ => cases h

/-- A group that the sweeps keep is not created again. -/
theorem opens_of_active {q : Queue} {req : AppRequest}
    (hsweep : ∀ ts, req.sweepClock? τ = some ts → ts ≤ c + groupIdleExpireMs)
    (hq : q.TopicHas τ (ActiveSince γ c)) : q.opens req τ γ = none := by
  obtain ⟨hshape, t, ht, hact⟩ := hq
  cases hclock : req.consumerClock? τ γ with
  | none => exact Queue.opens_of_not_consumer hclock
  | some now =>
      have hnow : ∀ ts, now = some ts → ts ≤ c + groupIdleExpireMs := by
        rintro ts rfl
        exact hsweep ts (AppRequest.sweepClock_of_consumer hclock)
      obtain ⟨g, hg, -⟩ := hact.swept (hshape τ t ht) hnow
      have hnone : openedIn (now.elim t (sweepAndReclaim t)) γ = none :=
        if_pos (by rw [OrdMap.contains_iff.mpr ⟨g, hg⟩]; rfl)
      unfold Queue.opens
      rw [ht, hclock]
      cases checkConsumer τ γ with
      | error reason => rfl
      | ok u => exact hnone

theorem activeSince_consume {t : TopicState} {g0 : GroupState} {now : Option Nat}
    {f : TopicState → GroupState → GroupState}
    (hentry : groupEntry (now.elim t (sweepAndReclaim t)) γ now = some g0)
    (hf : ∀ t g, c ≤ (f t g).lastActiveMs) : ActiveSince γ c (consumeTopic t γ now f) := by
  refine ⟨f (now.elim t (sweepAndReclaim t)) g0, ?_, hf _ _⟩
  unfold consumeTopic
  simp only [hentry, Option.elim_some]
  exact OrdMap.get?_insert_self ..

theorem poll_active {q : Queue} (hshape : q.Topics TopicShape) {req : AppRequest}
    (hsweep : req.sweepClock? τ = some c) {max vis : Nat}
    (hpoll : req.pollOf? τ γ = some (c, satAdd c (min vis maxVisibilityMs)))
    {t : TopicState} {g0 : GroupState} (ht : q.topics.get? τ = some t)
    (hentry : groupEntry (sweepAndReclaim t c) γ (some c) = some g0) :
    (q.poll τ γ max vis c).1.TopicHas τ (ActiveSince γ c) := by
  refine ⟨(poll_steps hsweep hpoll q).shape hshape,
    (pollTopic t γ max vis c q.nextLeaseId).1, ?_, ?_⟩
  · rw [Queue.poll_topics, ht, Option.map_some, if_pos rfl]
  · rw [pollTopic_fst]
    refine activeSince_consume hentry fun t g => ?_
    rw [pollGroup_same.lastActiveMs, GroupState.beginPoll_lastActiveMs]
    exact Nat.le_max_right ..

/-- A written consumer request that carries a clock leaves its group
active at that clock. -/
theorem apply_active {q : Queue} (hshape : q.Topics TopicShape) {req : AppRequest}
    (hclock : req.consumerClock? τ γ = some (some c)) (hok : checkConsumer τ γ = .ok ())
    {t : TopicState} {g0 : GroupState} (ht : q.topics.get? τ = some t)
    (hentry : groupEntry (sweepAndReclaim t c) γ (some c) = some g0) :
    (q.apply req).1.TopicHas τ (ActiveSince γ c) := by
  have hsweep := AppRequest.sweepClock_of_consumer hclock
  have hdel : req ≠ .deleteTopic τ := by
    rintro rfl
    cases hclock
  have hlater : ∀ ts, req.sweepClock? τ = some ts → ts ≤ c + groupIdleExpireMs := by
    intro ts hts
    obtain rfl := Option.some.inj (hsweep.symm.trans hts)
    exact Nat.le_add_right ..
  cases req with
  | poll topic group max vis ts =>
      simp only [AppRequest.consumerClock?] at hclock
      split_ifs at hclock with h
      obtain ⟨rfl, rfl⟩ := h
      obtain rfl : ts = c := by simpa using hclock
      simp only [Queue.apply, hok]
      exact poll_active hshape hsweep (by simp [AppRequest.pollOf?]) ht hentry
  | pollAuto topic group max vis ts =>
      simp only [AppRequest.consumerClock?] at hclock
      split_ifs at hclock with h
      obtain ⟨rfl, rfl⟩ := h
      obtain rfl : ts = c := by simpa using hclock
      have hpolled : (q.poll topic group max vis ts).1.TopicHas topic (ActiveSince group ts) :=
        poll_active hshape hsweep (by simp [AppRequest.pollOf?]) ht hentry
      have hacks : Steps (.pollAuto topic group max vis ts) (q.poll topic group max vis ts).1
          (q.apply (.pollAuto topic group max vis ts)).1 := by
        simp only [Queue.apply, hok]
        refine Relation.ReflTransGen.trans (foldl_steps (fun _ _ q => ?_) _) (reclaim_steps ..)
        exact ack_steps (by simp [AppRequest.Acks]) q
      exact hacks.active hdel hlater hpolled
  | commitOffsetAt topic group offset ts =>
      simp only [AppRequest.consumerClock?] at hclock
      split_ifs at hclock with h
      obtain ⟨rfl, rfl⟩ := h
      obtain rfl : ts = c := by simpa using hclock
      have hcommit : Steps (.commitOffsetAt topic group offset ts) q
          (q.commit topic group offset (some ts)) :=
        TopicSteps.update (commitTopic_steps (by simp [AppRequest.commitOf?]) hsweep) q
      have hcommitted : (q.commit topic group offset (some ts)).TopicHas topic
          (ActiveSince group ts) := by
        refine ⟨hcommit.shape hshape, commitTopic t group offset (some ts), ?_, ?_⟩
        · rw [Queue.commit, Queue.updateTopic_topics, ht, Option.map_some, if_pos rfl]
        · rw [commitTopic_eq]
          exact activeSince_consume hentry fun t g => Nat.le_max_right ..
      have hreclaim : Steps (.commitOffsetAt topic group offset ts)
          (q.commit topic group offset (some ts))
          (q.apply (.commitOffsetAt topic group offset ts)).1 := by
        simp only [Queue.apply, hok]
        exact reclaim_steps ..
      exact hreclaim.active hdel hlater hcommitted
  | _ => simp [AppRequest.consumerClock?] at hclock

/-- One event keeps a group whose written activity is recent: it is not
created again and its activity moves with what the event writes. -/
theorem onEvent_active {q : Queue} {e : ClientEvent} (hok : checkConsumer τ γ = .ok ())
    (hdel : e.written q ≠ some (.deleteTopic τ))
    (hdue : ∀ ts ∈ ((e.written q).bind (·.sweepClock? τ)).toList, ts ≤ c + groupIdleExpireMs)
    (hq : q.TopicHas τ (ActiveSince γ c)) :
    (∀ s ∈ q.history (e.written q).toList, s.1.opens s.2 τ γ = none) ∧
      (q.onEvent e).TopicHas τ
        (ActiveSince γ (max c (((e.written q).bind (·.consumerClock? τ γ)).join.getD 0))) := by
  cases hw : e.written q with
  | none => simpa [Queue.onEvent, hw, Queue.history] using hq
  | some req =>
      rw [hw] at hdel hdue
      have hsweep : ∀ ts, req.sweepClock? τ = some ts → ts ≤ c + groupIdleExpireMs :=
        fun ts hts => hdue ts (by simp [hts])
      have hopens := opens_of_active hsweep hq
      refine ⟨fun s hs => by rwa [List.mem_singleton.mp hs], ?_⟩
      have hkept : (q.apply req).1.TopicHas τ (ActiveSince γ c) :=
        (apply_steps q req).active (fun h => hdel (congrArg some h)) hsweep hq
      rw [Queue.onEvent, hw, Option.elim_some, Option.bind_some]
      cases hclock : req.consumerClock? τ γ with
      | none => simpa using hkept
      | some now =>
          cases now with
          | none => simpa using hkept
          | some ts =>
              rcases Nat.le_total ts c with hle | hle
              · simpa [max_eq_left hle] using hkept
              · obtain ⟨hshape, t, ht, hact⟩ := hq
                have hsts := hsweep ts (AppRequest.sweepClock_of_consumer hclock)
                have hswept : ActiveSince γ c ((some ts).elim t (sweepAndReclaim t)) :=
                  hact.swept (hshape τ t ht) (by simpa)
                obtain ⟨g, hg, -⟩ := hswept
                rw [Option.elim_some] at hg
                have hentry : groupEntry (sweepAndReclaim t ts) γ (some ts) = some g := by
                  simp [groupEntry, OrdMap.contains, hg]
                simpa [max_eq_right hle] using apply_active hshape hclock hok ht hentry

theorem onEvents_active {q : Queue} {events : List ClientEvent}
    (hok : checkConsumer τ γ = .ok ()) (hdel : .deleteTopic τ ∉ q.writes events)
    (hkeep : KeepsWriting τ γ c q events) (hq : q.TopicHas τ (ActiveSince γ c)) :
    (∀ s ∈ q.history (q.writes events), s.1.opens s.2 τ γ = none) ∧
      (q.onEvents events).TopicHas τ (ActiveSince γ c) := by
  induction events generalizing q c with
  | nil => exact ⟨nofun, hq⟩
  | cons e rest ih =>
      obtain ⟨hdue, hrest⟩ := hkeep
      rw [Queue.writes, List.mem_append, not_or] at hdel
      obtain ⟨hopens, hnext⟩ := onEvent_active hok
        (fun h => hdel.1 (by rw [h]; exact List.mem_singleton.mpr rfl)) hdue hq
      obtain ⟨hopens', hkept⟩ := ih hdel.2 hrest hnext
      constructor
      · rw [Queue.writes, Queue.history_append, ← Queue.onEvent_eq_run]
        exact fun s hs => (List.mem_append.mp hs).elim (hopens s) (hopens' s)
      · rw [Queue.onEvents_cons]
        obtain ⟨hshape, t, ht, hact⟩ := hkept
        exact ⟨hshape, t, ht, hact.mono (Nat.le_max_left ..)⟩

/-- What a request that creates a group at a clock leaves behind. -/
theorem created_active {q : Queue} (hshape : q.Topics TopicShape) {req : AppRequest} {w : Offset}
    (hopen : q.opens req τ γ = some w) (hclock : req.consumerClock? τ γ = some (some c)) :
    checkConsumer τ γ = .ok () ∧ (q.apply req).1.TopicHas τ (ActiveSince γ c) := by
  unfold Queue.opens at hopen
  rw [hclock] at hopen
  cases ht : q.topics.get? τ with
  | none => simp [ht] at hopen
  | some t =>
      cases hok : checkConsumer τ γ with
      | error reason => simp [ht, hok] at hopen
      | ok u =>
          have hopened : openedIn (sweepAndReclaim t c) γ = some w := by
            rw [ht, hok] at hopen
            exact hopen
          obtain ⟨hroom, -⟩ := Option.ite_none_left_eq_some.mp hopened
          have hentry : groupEntry (sweepAndReclaim t c) γ (some c) =
              some (((sweepAndReclaim t c).groups.get? γ).getD
                (freshGroup (sweepAndReclaim t c) (some c))) := by
            refine if_neg fun h => hroom ?_
            simp only [Bool.and_eq_true] at h
            simp [h.2]
          exact ⟨rfl, apply_active hshape hclock hok ht hentry⟩

end Kept

/-- A group whose written activity is within the idle span at every sweep
is never expired. From its creation at watermark `w` on, it is there after
every list of events that does not delete the topic, it is not created
again, and every offset from `w` on is retained unless the group acked
it, committed past it, or a retention limit dropped it. -/
theorem written_group_kept {τ : TopicId} {γ : GroupId} (before : List ClientEvent)
    {e : ClientEvent} {req : AppRequest} {w : Offset} {c : Nat} (after : List ClientEvent)
    (hwrite : e.written (({} : Queue).onEvents before) = some req)
    (hopen : (({} : Queue).onEvents before).opens req τ γ = some w)
    (hclock : req.consumerClock? τ γ = some (some c))
    (hkeep : KeepsWriting τ γ c ((({} : Queue).onEvents before).onEvent e) after)
    (hdel : .deleteTopic τ ∉ ((({} : Queue).onEvents before).onEvent e).writes after) :
    ∃ t g,
      (((({} : Queue).onEvents before).onEvent e).onEvents after).topics.get? τ = some t ∧
      t.groups.get? γ = some g ∧
      let since := ((({} : Queue).onEvents before).onEvent e).history
        (((({} : Queue).onEvents before).onEvent e).writes after)
      (∀ s ∈ since, s.1.opens s.2 τ γ = none) ∧
        ∀ o, w ≤ o → o < t.nextOffset → (∃ m, t.messages.get? o = some m) ∨
          ∃ s ∈ (({} : Queue).onEvents before, req) :: since, s.1.DoneBy s.2 τ γ o := by
  have hshape : (({} : Queue).onEvents before).Topics TopicShape := run_shape _
  generalize ({} : Queue).onEvents before = q at *
  have hfirst : q.onEvent e = (q.apply req).1 := by rw [Queue.onEvent, hwrite, Option.elim_some]
  rw [hfirst] at hkeep hdel ⊢
  obtain ⟨hok, hcreated⟩ := created_active hshape hopen hclock
  obtain ⟨hopens, hend, t, ht, g, hg, -⟩ := onEvents_active hok hdel hkeep hcreated
  refine ⟨t, g, ht, hg, hopens, fun o hw ho => ?_⟩
  have ho' := ho.trans_le (hend τ t ht).nextOffset_le
  by_cases hdone : g.Done o
  · right
    rcases done_since ho' hcreated.1 hopens ht hg hdone with
      ⟨t1, g1, ht1, hg1, hdone1⟩ | ⟨s, hs, hby⟩
    · obtain ⟨base, ⟨w', hopen', rfl⟩ | ⟨hnone, -⟩, hgrow⟩ := apply_group hshape ht1 hg1
      · obtain rfl := Option.some.inj (hopen.symm.trans hopen')
        exact ⟨_, List.mem_cons_self ..,
          ((hgrow o ho').2 hdone1).resolve_left (not_lt.mpr hw)⟩
      · rw [hnone] at hopen
        cases hopen
    · exact ⟨s, List.mem_cons_of_mem _ hs, hby⟩
  · left
    have hle : g.ackWatermark ≤ o := not_lt.mp fun hlt => hdone (Or.inl hlt)
    exact (hend τ t ht).dense o (((hend τ t ht).watermark hg).1.trans hle) ho

/-! ## A week without messages -/

def produceAt (tsMs : Nat) : ClientEvent :=
  .request (.produce "t" .default .raw [] "" 0 tsMs)

def pollAt (group : GroupId) (nowMs : Nat) : ClientEvent :=
  .poll "t" group true (some 10) 1000 nowMs

/-- Group `g` takes a second message within the week, so it is still there
when another group polls a week and a bit after the first. -/
theorem written_group_kept_second_message :
    ∃ t g, (((({} : Queue).onEvents [produceAt 1]).onEvent (pollAt "g" 1)).onEvents
      [produceAt 5, pollAt "g" 5, produceAt (2 + groupIdleExpireMs),
        pollAt "h" (2 + groupIdleExpireMs)]).topics.get? "t" = some t ∧
      t.groups.get? "g" = some g := by
  have hwrite : (pollAt "g" 1).written (({} : Queue).onEvents [produceAt 1]) =
      some (.pollAuto "t" "g" 10 1000 1) := by decide
  have hopen : (({} : Queue).onEvents [produceAt 1]).opens (.pollAuto "t" "g" 10 1000 1)
      "t" "g" = some 0 := by decide
  have hkeep : KeepsWriting "t" "g" 1
      ((({} : Queue).onEvents [produceAt 1]).onEvent (pollAt "g" 1))
      [produceAt 5, pollAt "g" 5, produceAt (2 + groupIdleExpireMs),
        pollAt "h" (2 + groupIdleExpireMs)] :=
    ⟨by decide, by decide, by decide, by decide, trivial⟩
  obtain ⟨t, g, ht, hg, -⟩ := written_group_kept [produceAt 1] _ hwrite hopen rfl hkeep (by decide)
  exact ⟨t, g, ht, hg⟩

/-- Group `g` polls at the end of its first week and finds nothing, so
nothing is written. A moment later a message arrives, which it has not
seen; the poll of another group expires `g` and reclaims the message. -/
theorem polling_group_expired :
    let before := [produceAt 1]
    let e := pollAt "g" 1
    let req : AppRequest := .pollAuto "t" "g" 10 1000 1
    let after := [pollAt "g" (1 + groupIdleExpireMs), produceAt (2 + groupIdleExpireMs)]
    let last := pollAt "h" (2 + groupIdleExpireMs)
    let q := (({} : Queue).onEvents before).onEvent e
    e.written (({} : Queue).onEvents before) = some req ∧
      (({} : Queue).onEvents before).opens req "t" "g" = some 0 ∧
      ((before ++ e :: (after ++ [last])).flatMap (·.clocks)).Pairwise (· ≤ ·) ∧
      KeepsPolling "t" "g" 1 q (after ++ [last]) ∧
      .deleteTopic "t" ∉ q.writes (after ++ [last]) ∧
      (∃ t g m, (q.onEvents after).topics.get? "t" = some t ∧ t.groups.get? "g" = some g ∧
        ¬g.Done 1 ∧ t.messages.get? 1 = some m) ∧
      ∃ t, (q.onEvents (after ++ [last])).topics.get? "t" = some t ∧
        t.groups.get? "g" = none ∧ t.messages.get? 1 = none := by
  intro before e req after last q
  refine ⟨by decide, by decide, by decide, ⟨by decide, by decide, by decide, trivial⟩,
    by decide, ?_, ?_⟩
  · exact ⟨(q.onEvents after).topicOrDefault "t",
      { ackWatermark := 1, pollCount := 1, lastActiveMs := 1 },
      ⟨1, .default, .raw, [], 2 + groupIdleExpireMs⟩, by decide, by decide, by decide, by decide⟩
  · exact ⟨(q.onEvents (after ++ [last])).topicOrDefault "t", by decide, by decide, by decide⟩

end HermesMq
