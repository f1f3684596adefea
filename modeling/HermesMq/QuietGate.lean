import HermesMq.GroupExpiry
import HermesMq.QueueLease

/-!
# What opens the gate

`has_deliverable` keeps a node from writing polls that bring nothing, and a
consumer that it turns away sleeps. It stays closed for a group until a
message is produced to the topic, a message of the topic is nacked, or a
lease runs out; the other requests only take leases, settle messages or drop
them. There is one exception, the sweep of a group that nobody has used for
a week: the group forgets what it was done with.
-/

namespace HermesMq

/-! ## What a group has to deliver -/

/-- Whatever is retained, the group is done with or holds past `now`. -/
def GroupState.Holds (g : GroupState) (messages : OrdMap Offset Message) (now : Nat) : Prop :=
  ∀ o m, messages.get? o = some m →
    g.Done o ∨ ∃ d, g.leasedOffsets.get? o = some d ∧ now < d

/-- Nothing to deliver to the group at `now`, and nothing will be soon: no
sweep drops a group that was active at `c`. -/
def Quiet (γ : GroupId) (now c : Nat) (t : TopicState) : Prop :=
  t.messages = ∅ ∨
    ∃ g, t.groups.get? γ = some g ∧ c ≤ g.lastActiveMs ∧ g.Holds t.messages now

section Gate

variable {q : Queue} {τ : TopicId} {γ : GroupId} {now c : Nat} {t : TopicState} {g : GroupState}

theorem gate_group_closed_iff (messages : OrdMap Offset Message) :
    ((messages.splitOff g.ackWatermark).entries.any fun (offset, _) =>
      decide (offset ∉ g.ackedAbove) && (g.leasedOffsets.get? offset).all (· ≤ now)) = false ↔
      g.Holds messages now := by
  rw [List.any_eq_false]
  constructor
  · intro h o m hm
    by_cases hle : g.ackWatermark ≤ o
    · have hmem : (o, m) ∈ (messages.splitOff g.ackWatermark).entries := by
        rw [← OrdMap.get?_eq_some, OrdMap.get?_splitOff, if_pos hle]
        exact hm
      have hgate := h (o, m) hmem
      by_cases hacked : o ∈ g.ackedAbove
      · exact .inl (.inr hacked)
      · cases hl : g.leasedOffsets.get? o with
        | none => simp [hacked, hl] at hgate
        | some d => exact .inr ⟨d, rfl, by simpa [hacked, hl] using hgate⟩
    · exact .inl (.inl (not_le.mp hle))
  · rintro h ⟨o, m⟩ hmem
    rw [← OrdMap.get?_eq_some, OrdMap.get?_splitOff] at hmem
    split_ifs at hmem with hle
    rcases h o m hmem with hdone | ⟨d, hd, hlt⟩
    · rcases hdone with hbelow | hacked
      · exact absurd hle (not_le.mpr hbelow)
      · simp [hacked]
    · simp [hd, hlt]

theorem hasDeliverable_of_quiet
    (h : ∀ t, q.topics.get? τ = some t → Quiet γ now c t) :
    q.hasDeliverable τ γ now = false := by
  rw [Queue.hasDeliverable]
  cases ht : q.topics.get? τ with
  | none => rfl
  | some t =>
      rcases h t ht with hempty | ⟨g, hg, -, hholds⟩
      · cases hg : t.groups.get? γ with
        | none => simp [hg, OrdMap.size_eq_zero.mpr hempty]
        | some g =>
            simp only [hg]
            refine (gate_group_closed_iff t.messages).mpr fun o m hm => ?_
            rw [hempty] at hm
            cases hm
      · simp only [hg]
        exact (gate_group_closed_iff t.messages).mpr hholds

theorem quiet_of_hasDeliverable (h : q.hasDeliverable τ γ now = false)
    (ht : q.topics.get? τ = some t)
    (hactive : ∀ g, t.groups.get? γ = some g → c ≤ g.lastActiveMs) : Quiet γ now c t := by
  simp only [Queue.hasDeliverable, ht] at h
  cases hg : t.groups.get? γ with
  | none =>
      simp only [hg] at h
      exact .inl (OrdMap.size_eq_zero.mp (by simpa using h))
  | some g =>
      simp only [hg] at h
      exact .inr ⟨g, hg, hactive g hg, (gate_group_closed_iff t.messages).mp h⟩

end Gate

/-! ## Entries that bring a group nothing -/

section Quiet

variable {γ : GroupId} {now c : Nat} {t : TopicState} {g : GroupState} {n : LeaseId}
  {messages : OrdMap Offset Message}

namespace GroupState

theorem Holds.of_done (h : g.Holds messages now) {g' : GroupState}
    (hdone : ∀ {o m}, messages.get? o = some m → g.Done o → g'.Done o)
    (hleased : ∀ {o m}, messages.get? o = some m →
      g'.leasedOffsets.get? o = g.leasedOffsets.get? o ∨ g'.Done o) :
    g'.Holds messages now := by
  intro o m hm
  rcases h o m hm with hd | ⟨d, hd, hlt⟩
  · exact .inl (hdone hm hd)
  · rcases hleased hm with hsame | hd'
    · exact .inr ⟨d, hsame ▸ hd, hlt⟩
    · exact .inl hd'

/-- The leases that a poll expires are not those past `now`. -/
theorem Holds.beginPoll (h : g.Holds messages now) (hagree : g.LeasesAgree) {ts : Nat}
    (hts : ts ≤ now) : (g.beginPoll ts).Holds messages now := by
  intro o m hm
  rcases h o m hm with hd | ⟨d, hd, hlt⟩
  · exact .inl ((beginPoll_done g ts o).mpr hd)
  · refine .inr ⟨d, ?_, hlt⟩
    rw [show (g.beginPoll ts).leasedOffsets = (g.expire ts).leasedOffsets from rfl, expire,
      dropLeases_leasedOffsets_of_kept fun id l hid ho => ?_, hd]
    have hl : g.leasedOffsets.get? l.offset = some l.deadlineMs := hagree.leased hid
    rw [ho, hd] at hl
    rw [← Option.some.inj hl]
    exact decide_eq_false (by omega)

theorem Holds.ackLease (h : g.Holds messages now) (hw : g.ackWatermark ≤ u64Max)
    (hsmall : ∀ {o m}, messages.get? o = some m → o < u64Max) (id : LeaseId) :
    (g.ackLease id).Holds messages now := by
  refine h.of_done (fun hm hd => (ackLease_done hw id (hsmall hm)).mpr (.inl hd))
    fun {o m} hm => ?_
  cases hid : g.inFlight.get? id with
  | none =>
      refine .inl ?_
      rw [GroupState.ackLease, hid]
  | some l =>
      by_cases ho : l.offset = o
      · exact .inr ((ackLease_done hw id (hsmall hm)).mpr (.inr ⟨l, hid, ho⟩))
      · refine .inl ?_
        simp only [GroupState.ackLease, hid]
        rw [markAcked_leasedOffsets, removeLease_leasedOffsets, hid]
        exact if_neg (by simpa using ho)

theorem Holds.advanceWatermark (h : g.Holds messages now) (hw : g.ackWatermark ≤ u64Max)
    (hsmall : ∀ {o m}, messages.get? o = some m → o < u64Max) {upto : Offset}
    (hto : upto ≤ u64Max) : (g.advanceWatermark upto).Holds messages now := by
  have hdone {o m} (hm : messages.get? o = some m) :=
    advanceWatermark_done hw hto (hsmall hm)
  refine h.of_done (fun hm hd => (hdone hm).mpr (.inl hd)) fun {o m} hm => ?_
  by_cases hbelow : o < max g.ackWatermark upto
  · refine .inr ((hdone hm).mpr ?_)
    rcases lt_max_iff.mp hbelow with hlt | hlt
    · exact .inl (.inl hlt)
    · exact .inr hlt
  · refine .inl ?_
    rw [advanceWatermark_eq, absorbAcked_leasedOffsets]
    refine dropLeases_leasedOffsets_of_kept fun id l hid ho => ?_
    rw [ho]
    exact decide_eq_false hbelow

end GroupState

/-- A step of the group itself, short of a nack. -/
theorem GroupState.Holds.step {op : TopicOp} {g' : GroupState} (hstep : GroupStep t γ g op g')
    (h : g.Holds t.messages now) (hshape : TopicShape t) (hnext : t.nextOffset < u64Max)
    (hg : t.groups.get? γ = some g) (hpre : op.Pre t n)
    (hpurge : ∀ ts, op ≠ .purge ts) (hnack : ∀ id, op ≠ .nack γ id)
    (hpoll : ∀ ts, op = .beginPoll γ ts → ts ≤ now) : g'.Holds t.messages now := by
  have hw := (hshape.watermark hg).2
  have hsmall {o m} (hm : t.messages.get? o = some m) : o < u64Max :=
    (hshape.keys_le hm).trans_lt hnext
  cases hstep with
  | same => exact h
  | purge ts => exact absurd rfl (hpurge ts)
  | sweep ts => exact h.of_done (by simp) (by simp)
  | beginPoll ts => exact h.beginPoll (hshape.leases hg) (hpoll ts rfl)
  | lease id o d =>
      -- there is nothing that it could take
      have hdel := hpre.deliverable hg
      obtain ⟨m, hm⟩ := hdel.retained
      rcases h o m hm with hd | ⟨d', hd', -⟩
      · exact absurd hd hdel.not_done
      · rw [hdel.unleased] at hd'
        cases hd'
  | ack id => exact h.ackLease hw hsmall id
  | nack id => exact absurd rfl (hnack id)
  | commit upto ts =>
      have hto : upto ≤ u64Max := le_trans hpre hshape.nextOffset_le
      exact (h.advanceWatermark hw hsmall hto).of_done (by simp) (by simp)

theorem Quiet.run {op : TopicOp} (h : Quiet γ now c t) (hshape : TopicShape t)
    (hnext : t.nextOffset < u64Max) (hpre : op.Pre t n)
    (happend : ∀ item, op ≠ .append item) (hpurge : ∀ ts, op ≠ .purge ts)
    (hnack : ∀ id, op ≠ .nack γ id) (hpoll : ∀ ts, op = .beginPoll γ ts → ts ≤ now)
    (hsweep : ∀ ts, op = .sweep ts → ts ≤ c + groupIdleExpireMs) :
    Quiet γ now c (op.run t) := by
  obtain ⟨-, b, hcut, -⟩ := TopicOp.run_cut hshape hpre happend
  rcases h with hempty | ⟨g, hg, hactive, hholds⟩
  · refine .inl (OrdMap.ext_get? fun o => ?_)
    cases hm : (op.run t).messages.get? o with
    | none => rfl
    | some m =>
        have hm' := (hcut.sub hm).1
        rw [hempty] at hm'
        cases hm'
  · rcases TopicOp.group_run hpre hshape.size_le_threshold hg with hrun | ⟨ts, rfl, hidle, -⟩
    · refine .inr ⟨_, hrun, hactive.trans (TopicOp.le_groupRun_lastActiveMs t γ g op), ?_⟩
      intro o m hm
      exact hholds.step (TopicOp.groupStep t γ g op) hshape hnext hg hpre hpurge hnack hpoll
        o m (hcut.sub hm).1
    · rw [keptBySweep_of_active hactive (hsweep ts rfl)] at hidle
      cases hidle

end Quiet

/-- The topic may be missing, or new. -/
structure QuietTopic (γ : GroupId) (now c : Nat) (t : TopicState) : Prop where
  shape : TopicShape t
  next : t.nextOffset < u64Max
  quiet : Quiet γ now c t

/-- A request that neither produces to the topic nor nacks on it. -/
structure AppRequest.Spares (τ : TopicId) (req : AppRequest) : Prop where
  items : ∀ item ∈ req.items, item.topic ≠ τ
  nacks : ∀ γ id, ¬req.Nacks τ γ id

theorem QuietTopic.run {γ : GroupId} {now c : Nat} {t : TopicState} (h : QuietTopic γ now c t)
    {req : AppRequest} {τ : TopicId} (hspares : req.Spares τ)
    (hclock : ∀ ts, req.sweepClock? τ = some ts → ts ≤ now) (hnow : now ≤ c + groupIdleExpireMs)
    {op : TopicOp} {n : LeaseId} (hallow : op.AllowedBy req τ) (hpre : op.Pre t n) :
    QuietTopic γ now c (op.run t) := by
  have happend : ∀ item, op ≠ .append item := by
    rintro item rfl
    exact hspares.items item hallow.1 hallow.2
  have hpurge : ∀ ts, op ≠ .purge ts := by
    rintro ts rfl
    obtain ⟨item, hmem, htopic, -⟩ := hallow
    exact hspares.items item hmem htopic
  have hnext := (TopicOp.run_cut h.shape hpre happend).1
  refine ⟨h.shape.run hpre, hnext ▸ h.next,
    h.quiet.run h.shape h.next hpre happend hpurge ?_ ?_ ?_⟩
  · rintro id rfl
    exact hspares.nacks γ id hallow
  · rintro ts rfl
    obtain ⟨d, hd⟩ := hallow
    exact hclock ts (AppRequest.sweepClock_of_pollOf hd)
  · rintro ts rfl
    exact (hclock ts hallow).trans hnow

/-- Nothing of the topic is deliverable to the group at `now`. -/
def Queue.QuietAt (τ : TopicId) (γ : GroupId) (now : Nat) (q : Queue) : Prop :=
  ∀ t, q.topics.get? τ = some t → QuietTopic γ now (now - groupIdleExpireMs) t

namespace Queue.QuietAt

variable {q q' : Queue} {τ : TopicId} {γ : GroupId} {now : Nat} {req : AppRequest}

theorem of_closed (hshape : q.Topics TopicShape) (h : q.hasDeliverable τ γ now = false)
    (hoffsets : ∀ t, q.topics.get? τ = some t → t.nextOffset < u64Max)
    (hactive : ∀ t g, q.topics.get? τ = some t → t.groups.get? γ = some g →
      now ≤ g.lastActiveMs + groupIdleExpireMs) : q.QuietAt τ γ now := by
  refine fun t ht => ⟨hshape τ t ht, hoffsets t ht, quiet_of_hasDeliverable h ht fun g hg => ?_⟩
  exact Nat.sub_le_of_le_add (hactive t g ht hg)

theorem closed (h : q.QuietAt τ γ now) : q.hasDeliverable τ γ now = false :=
  hasDeliverable_of_quiet fun t ht => (h t ht).quiet

theorem op {op : QueueOp} (h : q.QuietAt τ γ now) (hspares : req.Spares τ)
    (hclock : ∀ ts, req.sweepClock? τ = some ts → ts ≤ now) (hallow : op.AllowedBy req)
    (hpre : op.Pre q) : (op.run q).QuietAt τ γ now := by
  intro t' ht'
  cases op with
  | create σ =>
      simp only [QueueOp.run, Queue.putTopic_topics] at ht'
      split_ifs at ht' with heq
      · cases ht'
        exact ⟨TopicShape.empty, by decide, .inl rfl⟩
      · exact h t' ht'
  | delete σ =>
      simp only [QueueOp.run, OrdMap.get?_erase] at ht'
      split_ifs at ht' with heq
      exact h t' ht'
  | topic σ op =>
      obtain ⟨t, ht, hpre⟩ := hpre
      simp only [QueueOp.run, Queue.updateTopic_of_some ht, Queue.putTopic_topics] at ht'
      split_ifs at ht' with heq
      · subst heq
        cases ht'
        exact (h t ht).run hspares hclock (by omega) hallow hpre
      · exact h t' ht'

theorem apply (h : q.QuietAt τ γ now) (hspares : req.Spares τ)
    (hclock : ∀ ts, req.sweepClock? τ = some ts → ts ≤ now) :
    (q.apply req).1.QuietAt τ γ now :=
  (apply_steps q req).invariant (P := QuietAt τ γ now)
    (fun _ _ hallow hpre h => h.op hspares hclock hallow hpre) h

theorem run {reqs : List AppRequest} (h : q.QuietAt τ γ now) (hspares : ∀ req ∈ reqs, req.Spares τ)
    (hclock : ∀ req ∈ reqs, ∀ ts, req.sweepClock? τ = some ts → ts ≤ now) :
    (q.run reqs).QuietAt τ γ now := by
  induction reqs generalizing q with
  | nil => exact h
  | cons req rest ih =>
      rw [List.forall_mem_cons] at hspares hclock
      exact ih (h.apply hspares.1 hclock.1) hspares.2 hclock.2

end Queue.QuietAt

/-- A gate that is closed stays closed whatever is applied, short of a
message or a nack for its topic. -/
theorem gate_opens_by_news (reqs : List AppRequest) {τ : TopicId} {γ : GroupId} {now : Nat}
    (hclosed : (({} : Queue).run reqs).hasDeliverable τ γ now = false)
    (hoffsets : ∀ t, (({} : Queue).run reqs).topics.get? τ = some t → t.nextOffset < u64Max)
    (hactive : ∀ t g, (({} : Queue).run reqs).topics.get? τ = some t →
      t.groups.get? γ = some g → now ≤ g.lastActiveMs + groupIdleExpireMs)
    {more : List AppRequest} (hspares : ∀ req ∈ more, req.Spares τ)
    (hclock : ∀ req ∈ more, ∀ ts, req.sweepClock? τ = some ts → ts ≤ now) :
    ((({} : Queue).run reqs).run more).hasDeliverable τ γ now = false := by
  have hquiet := Queue.QuietAt.of_closed (run_shape reqs) hclosed hoffsets hactive
  exact (hquiet.run hspares hclock).closed

/-- One message, leased until 1001: an ack of another lease, another poll
and a commit of nothing leave the group with nothing until then. -/
theorem gate_opens_by_news_leased :
    (({} : Queue).run [plainProduce, .poll "t" "g" 1 1000 1]).hasDeliverable "t" "g" 900 = false ∧
      ((({} : Queue).run [plainProduce, .poll "t" "g" 1 1000 1]).run
        [.ackMany "t" "g" [7], .poll "t" "g" 5 1000 900, .commitOffset "t" "g" 0,
          .produce "u" .default .raw [1] "" 0 5]).hasDeliverable "t" "g" 900 = false := by
  refine ⟨rfl, gate_opens_by_news _ rfl (fun t ht => ?_) (fun t g ht hg => ?_) ?_ ?_⟩
  · cases ht
    decide
  · cases ht
    cases hg
    decide
  · simp only [List.forall_mem_cons, List.not_mem_nil, false_implies, implies_true, and_true]
    exact ⟨⟨nofun, nofun⟩, ⟨nofun, nofun⟩, ⟨nofun, nofun⟩,
      ⟨fun item hitem => by cases List.mem_singleton.mp hitem; decide, nofun⟩⟩
  · simp [AppRequest.sweepClock?]

end HermesMq
