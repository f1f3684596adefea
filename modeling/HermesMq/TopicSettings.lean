import HermesMq.QueueLimits

/-!
# The settings of a topic

A topic has a rate limit and a retention policy. Two requests set them, and
deleting the topic forgets them. Everything else that happens to a topic
leaves them alone, so after any run they are what the accepted settings
since the last deletion say (`settings_follow_requests`).
-/

namespace HermesMq

structure TopicSettings where
  rateMilliPerSec : Nat := 0
  burst : Nat := 0
  retainMaxMessages : Nat := 0
  retainMaxAgeMs : Nat := 0
deriving DecidableEq

/-- What an accepted request makes of the settings of topic `τ`. -/
def TopicSettings.after (τ : TopicId) (s : TopicSettings) : AppRequest → TopicSettings
  | .setRateLimit topic rateMilliPerSec burst =>
      if topic = τ then { s with rateMilliPerSec := rateMilliPerSec, burst := burst } else s
  | .setRetention topic maxMessages maxAgeMs =>
      if topic = τ then { s with retainMaxMessages := maxMessages, retainMaxAgeMs := maxAgeMs }
      else s
  | .deleteTopic topic => if topic = τ then {} else s
  | _ => s

namespace TopicState

def settings (t : TopicState) : TopicSettings :=
  ⟨t.rateMilliPerSec, t.burst, t.retainMaxMessages, t.retainMaxAgeMs⟩

variable (t : TopicState)

@[simp] theorem settings_putGroup (group : GroupId) (g : GroupState) :
    (putGroup t group g).settings = t.settings := rfl

@[simp] theorem settings_updateGroup (group : GroupId) (f : GroupState → GroupState) :
    (updateGroup t group f).settings = t.settings := by
  unfold updateGroup
  split <;> rfl

@[simp] theorem settings_reclaim : (reclaim t).settings = t.settings := by
  have hmessages : (reclaimMessages t).settings = t.settings := by
    unfold reclaimMessages
    split
    · rfl
    · split <;> rfl
  rw [reclaim, gcIdleGroups, ← hmessages]
  split <;> rfl

@[simp] theorem settings_sweepAndReclaim (nowMs : Nat) :
    (sweepAndReclaim t nowMs).settings = t.settings := by
  simp only [sweepAndReclaim]
  split
  · rw [settings_reclaim]
    rfl
  · rfl

@[simp] theorem settings_purgeRetained (nowMs : Nat) :
    (purgeRetained t nowMs).settings = t.settings := by
  simp only [purgeRetained]
  split <;> rfl

@[simp] theorem settings_appendMessage (item : ProduceItem) :
    (appendMessage t item).settings = t.settings := by
  simp only [appendMessage]
  split <;> rfl

@[simp] theorem settings_produceTopic (item : ProduceItem) :
    (produceTopic t item).1.settings = t.settings := by
  simp only [produceTopic]
  split <;> simp

@[simp] theorem settings_pollTopic (group : GroupId) (max vis ts : Nat) (n : LeaseId) :
    (pollTopic t group max vis ts n).1.settings = t.settings := by
  simp only [pollTopic]
  split <;> simp

@[simp] theorem settings_commitTopic (group : GroupId) (offset : Offset) (now : Option Nat) :
    (commitTopic t group offset now).settings = t.settings := by
  have hsweep : (now.elim t (sweepAndReclaim t)).settings = t.settings := by
    cases now <;> simp
  simp only [commitTopic]
  split <;> simp [hsweep]

end TopicState

namespace Queue

/-- The settings of topic `τ`; a topic that is not there has none. -/
def settings (q : Queue) (τ : TopicId) : TopicSettings := (q.topicOrDefault τ).settings

variable (q : Queue) (σ τ : TopicId)

theorem settings_putTopic (t : TopicState) :
    (q.putTopic σ t).settings τ = if σ = τ then t.settings else q.settings τ := by
  rw [settings, topicOrDefault, putTopic_topics]
  simp only [eq_comm (a := τ)]
  split_ifs <;> rfl

theorem settings_updateTopic {f : TopicState → TopicState}
    (hf : ∀ t, (f t).settings = t.settings) : (q.updateTopic σ f).settings τ = q.settings τ := by
  rw [settings, settings, topicOrDefault, topicOrDefault, updateTopic_topics]
  cases q.topics.get? τ with
  | none => rfl
  | some t =>
      rw [Option.map_some, Option.getD_some, Option.getD_some]
      split_ifs
      · exact hf t
      · rfl

/-- Putting the topic back with the settings it had. -/
theorem settings_putTopic_same {t : TopicState}
    (ht : t.settings = q.settings σ) : (q.putTopic σ t).settings τ = q.settings τ := by
  rw [settings_putTopic]
  split_ifs with hσ
  · rw [ht, hσ]
  · rfl

theorem settings_produceAll (items : List ProduceItem) :
    (q.produceAll items).1.settings τ = q.settings τ := by
  induction items generalizing q with
  | nil => rfl
  | cons item rest ih =>
      refine (ih (q.produceOne item).1).trans ?_
      exact settings_putTopic_same q _ τ (TopicState.settings_produceTopic _ item)

theorem settings_poll (group : GroupId) (max vis ts : Nat) :
    (q.poll σ group max vis ts).1.settings τ = q.settings τ := by
  rw [poll]
  cases ht : q.topics.get? σ with
  | none => rfl
  | some t =>
      refine settings_putTopic_same q σ τ ?_
      rw [TopicState.settings_pollTopic, settings, topicOrDefault, ht]
      rfl

theorem settings_foldl {α : Type} {f : Queue → α → Queue}
    (hf : ∀ q a, (f q a).settings τ = q.settings τ) (l : List α) :
    (l.foldl f q).settings τ = q.settings τ := by
  induction l generalizing q with
  | nil => rfl
  | cons a rest ih => exact (ih (f q a)).trans (hf q a)

theorem settings_reclaimTopic : (q.reclaimTopic σ).settings τ = q.settings τ :=
  settings_updateTopic q σ τ TopicState.settings_reclaim

theorem settings_ack (group : GroupId) (id : LeaseId) :
    (q.ack σ group id).settings τ = q.settings τ :=
  settings_updateTopic q σ τ fun t => TopicState.settings_updateGroup t group _

theorem settings_foldl_ack {α : Type} (group : GroupId) (id : α → LeaseId) (l : List α) :
    (l.foldl (fun q a => q.ack σ group (id a)) q).settings τ = q.settings τ :=
  settings_foldl q τ (fun q a => settings_ack q σ τ group (id a)) l

theorem settings_nack (group : GroupId) (id : LeaseId) :
    (q.nack σ group id).settings τ = q.settings τ :=
  settings_updateTopic q σ τ fun t => TopicState.settings_updateGroup t group _

theorem settings_commit (group : GroupId) (offset : Offset) (now : Option Nat) :
    (q.commit σ group offset now).settings τ = q.settings τ :=
  settings_updateTopic q σ τ fun t => TopicState.settings_commitTopic t group offset now

theorem settings_erase :
    ({ q with topics := q.topics.erase σ } : Queue).settings τ =
      if σ = τ then {} else q.settings τ := by
  rw [settings, settings, topicOrDefault, topicOrDefault, OrdMap.get?_erase]
  simp only [eq_comm (a := τ)]
  split_ifs <;> rfl

/-- One request: refused, it changes nothing; accepted, only the two
settings requests and the deletion touch the settings. -/
theorem apply_settings {q : Queue} {req : AppRequest} (h : ¬(q.apply req).2.Rejected)
    (τ : TopicId) : (q.apply req).1.settings τ = (q.settings τ).after τ req := by
  have hrejected : ∀ reason, (AppResponse.rejected reason).Rejected := fun reason => ⟨reason, rfl⟩
  cases req with
  | createTopic topic =>
      simp only [apply] at h ⊢
      split at h
      · exact absurd (hrejected _) h
      · exact settings_putTopic_same q topic τ rfl
  | deleteTopic topic => exact settings_erase q topic τ
  | produce topic priority contentType payload producerId seq tsMs =>
      simp only [apply] at h ⊢
      split at h
      · exact absurd (hrejected _) h
      · exact settings_putTopic_same q topic τ (TopicState.settings_produceTopic _ _)
  | produceMany items =>
      simp only [apply] at h ⊢
      split at h
      · exact absurd (hrejected _) h
      · exact settings_produceAll q τ items
  | poll topic group max vis ts =>
      simp only [apply] at h ⊢
      split at h
      · exact absurd (hrejected _) h
      · exact settings_poll q topic τ group max vis ts
  | pollAuto topic group max vis ts =>
      simp only [apply] at h ⊢
      split at h
      · exact absurd (hrejected _) h
      · rw [settings_reclaimTopic]
        rw [settings_foldl_ack _ topic τ group Delivered.leaseId]
        exact settings_poll q topic τ group max vis ts
  | ack topic group id =>
      simp only [apply, settings_reclaimTopic, settings_ack, TopicSettings.after]
  | ackMany topic group ids =>
      simp only [apply, settings_reclaimTopic, TopicSettings.after]
      exact settings_foldl_ack q topic τ group id ids
  | nackMany topic group ids =>
      exact settings_foldl q τ (f := fun q id => q.nack topic group id)
        (fun q id => settings_nack q topic τ group id) ids
  | nack topic group id => exact settings_nack q topic τ group id
  | commitOffset topic group offset =>
      simp only [apply] at h ⊢
      split at h
      · exact absurd (hrejected _) h
      · simp only [settings_reclaimTopic, settings_commit, TopicSettings.after]
  | commitOffsetAt topic group offset ts =>
      simp only [apply] at h ⊢
      split at h
      · exact absurd (hrejected _) h
      · simp only [settings_reclaimTopic, settings_commit, TopicSettings.after]
  | setRateLimit topic rate burst =>
      simp only [apply] at h ⊢
      split at h
      · exact absurd (hrejected _) h
      · rw [settings_putTopic, TopicSettings.after]
        split_ifs with hτ
        · rw [hτ]
          rfl
        · rfl
  | setRetention topic maxMessages maxAgeMs =>
      simp only [apply] at h ⊢
      split at h
      · exact absurd (hrejected _) h
      · rw [settings_putTopic, TopicSettings.after]
        split_ifs with hτ
        · rw [hτ]
          rfl
        · rfl

instance (r : AppResponse) : Decidable r.Rejected :=
  match r with
  | .rejected reason => isTrue ⟨reason, rfl⟩
  | .topicCreated | .topicDeleted | .produced _ | .producedMany _ | .polled _ | .acked
  | .nacked | .committed | .rateLimitSet | .retentionSet | .noOp =>
      isFalse fun ⟨_, h⟩ => AppResponse.noConfusion h

/-- The requests of a log that were not refused, in order. -/
def accepted (q : Queue) : List AppRequest → List AppRequest
  | [] => []
  | req :: rest =>
      if (q.apply req).2.Rejected then q.accepted rest
      else req :: (q.apply req).1.accepted rest

theorem settings_follow_requests (q : Queue) (reqs : List AppRequest) (τ : TopicId) :
    (q.run reqs).settings τ = (q.accepted reqs).foldl (TopicSettings.after τ) (q.settings τ) := by
  induction reqs generalizing q with
  | nil => rfl
  | cons req rest ih =>
      rw [run_cons, accepted]
      by_cases h : (q.apply req).2.Rejected
      · rw [if_pos h, apply_rejected h, ih]
      · rw [if_neg h, List.foldl_cons, ih, apply_settings h]

end Queue

end HermesMq
