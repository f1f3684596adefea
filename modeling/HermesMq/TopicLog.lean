import HermesMq.QueueHealth
import HermesMq.QueueHistory
import HermesMq.TopicLimit

/-!
# A topic is a log

Whatever a topic holds comes from the produces it accepted. `topicLog`
lists, for the topic of a name as it is now, what they did since it was
created: the messages they appended, with the offset each was answered,
and the retention passes that purged something.

`LogInvariant.run` is the rule for relating a topic to its log: a relation
that holds between a new topic and the empty log, that appending and
purging keep with their event added to the log, and that every other step
keeps with the log as it is, holds after every run.

The first such relation is `LogMatches`. With the counters in bounds it
makes a topic a gapless, immutable log (`topic_is_gapless_log`).
-/

namespace HermesMq

/-! ## What happens to a topic -/

inductive TopicEvent where
  | appended (item : ProduceItem) (offset : Offset)
  | purged (boundary : Offset)
deriving DecidableEq

/-- The event of a retention pass: none if it purges nothing. -/
def purgeEvents (t : TopicState) (nowMs : Nat) : List TopicEvent :=
  if purgeSet t nowMs = ∅ then [] else [.purged (purgeBoundary t nowMs)]

/-- The events of `produce_one`. A duplicate appends nothing; retention
runs on it too. -/
def produceEvents (t : TopicState) (item : ProduceItem) : List TopicEvent :=
  (if item.producerId ≠ "" ∧ t.dedup.contains item.dedupKey then []
    else [.appended item (produceTopic t item).2]) ++
    purgeEvents (produceAppended t item) item.tsMs

namespace Queue

/-- The events of a batch on topic `τ`. -/
def produceAllEvents (q : Queue) (τ : TopicId) : List ProduceItem → List TopicEvent
  | [] => []
  | item :: rest =>
      (if item.topic = τ then produceEvents (q.topicOrDefault τ) item else []) ++
        produceAllEvents (q.produceOne item).1 τ rest

/-- The events of a request on topic `τ`: only accepted produces have any. -/
def topicEvents (q : Queue) (τ : TopicId) (req : AppRequest) : List TopicEvent :=
  match q.checkProduce req.items with
  | .error _ => []
  | .ok () => q.produceAllEvents τ req.items

end Queue

/-- What happened to topic `τ` in a run, since it was last deleted. -/
def topicLog (τ : TopicId) (reqs : List AppRequest) : List TopicEvent :=
  (({} : Queue).history reqs).foldl
    (fun log s => if s.2 = .deleteTopic τ then [] else log ++ s.1.topicEvents τ s.2) []

theorem topicLog_snoc (τ : TopicId) (reqs : List AppRequest) (req : AppRequest) :
    topicLog τ (reqs ++ [req]) = if req = .deleteTopic τ then []
      else topicLog τ reqs ++ (({} : Queue).run reqs).topicEvents τ req := by
  rw [topicLog, Queue.history_append, List.foldl_append]
  rfl

def TopicEvent.append? : TopicEvent → Option (ProduceItem × Offset)
  | .appended item offset => some (item, offset)
  | .purged _ => none

/-- The appended messages of a log, with their offsets. -/
def appends (log : List TopicEvent) : List (ProduceItem × Offset) :=
  log.filterMap TopicEvent.append?

@[simp] theorem appends_nil : appends [] = [] := rfl

@[simp] theorem appends_append (log log' : List TopicEvent) :
    appends (log ++ log') = appends log ++ appends log' :=
  List.filterMap_append

@[simp] theorem appends_appended (item : ProduceItem) (offset : Offset) :
    appends [.appended item offset] = [(item, offset)] := rfl

@[simp] theorem appends_purgeEvents (t : TopicState) (now : Nat) :
    appends (purgeEvents t now) = [] := by
  unfold purgeEvents
  split <;> rfl

/-! ## Invariants of a topic and its log -/

/-- A relation between the log and the state of topic `τ` that every step
keeps. -/
structure LogInvariant (τ : TopicId) (I : List TopicEvent → TopicState → Prop) : Prop where
  empty : I [] {}
  append : ∀ {log t item}, TopicShape t → item.topic = τ → item.NamesOk →
    (item.producerId ≠ "" → t.dedup.get? item.dedupKey = none) → I log t →
    I (log ++ [.appended item t.nextOffset]) (appendMessage t item)
  purge : ∀ {log t} now, TopicShape t → I log t →
    I (log ++ purgeEvents t now) (purgeRetained t now)
  other : ∀ {log t n op}, TopicShape t → TopicOp.Pre t n op → (∀ item, op ≠ .append item) →
    (∀ now, op ≠ .purge now) → I log t → I log (op.run t)

/-- The relation holds between `log` and topic `τ`, and the log is empty
if there is no such topic. -/
structure Queue.Logged (I : List TopicEvent → TopicState → Prop) (τ : TopicId)
    (log : List TopicEvent) (q : Queue) : Prop where
  holds : I log (q.topicOrDefault τ)
  absent : q.topics.get? τ = none → log = []

theorem Queue.topicOrDefault_of_some {q : Queue} {τ : TopicId} {t : TopicState}
    (h : q.topics.get? τ = some t) : q.topicOrDefault τ = t := by
  rw [Queue.topicOrDefault, h, Option.getD_some]

theorem Queue.topicOrDefault_congr {q q' : Queue} {τ : TopicId}
    (h : q'.topics.get? τ = q.topics.get? τ) : q'.topicOrDefault τ = q.topicOrDefault τ := by
  rw [Queue.topicOrDefault, h, Queue.topicOrDefault]

theorem Queue.topicOrDefault_shape {q : Queue} (hq : q.Topics TopicShape) (τ : TopicId) :
    TopicShape (q.topicOrDefault τ) := by
  unfold Queue.topicOrDefault
  cases ht : q.topics.get? τ with
  | none => exact TopicShape.empty
  | some t => exact hq τ t ht

theorem Queue.Logged.congr {I : List TopicEvent → TopicState → Prop} {τ : TopicId}
    {log : List TopicEvent} {q q' : Queue} (h : q.Logged I τ log)
    (hsame : q'.topics.get? τ = q.topics.get? τ) : q'.Logged I τ log where
  holds := Queue.topicOrDefault_congr hsame ▸ h.holds
  absent := hsame ▸ h.absent

namespace LogInvariant

variable {τ : TopicId} {I : List TopicEvent → TopicState → Prop} (h : LogInvariant τ I)

include h

/-- A request that neither produces nor deletes the topic leaves its log. -/
theorem steps {req : AppRequest} (hitems : req.items = []) (hkeep : req ≠ .deleteTopic τ)
    {q q' : Queue} (hsteps : Steps req q q') (hshape : q.Topics TopicShape)
    {log : List TopicEvent} (hq : q.Logged I τ log) : q'.Logged I τ log := by
  suffices hboth : q'.Topics TopicShape ∧ q'.Logged I τ log from hboth.2
  refine hsteps.invariant (P := fun q => q.Topics TopicShape ∧ q.Logged I τ log)
    (fun q op hallow hpre hq => ?_) ⟨hshape, hq⟩
  obtain ⟨hshape, hq⟩ := hq
  have hone : Steps req q (op.run q) := Relation.ReflTransGen.single ⟨op, hallow, hpre, rfl⟩
  refine ⟨hone.shape hshape, ?_⟩
  cases op with
  | create σ =>
      by_cases hσ : τ = σ
      · subst hσ
        have hnone : q.topics.get? τ = none := hpre
        have hempty := hq.absent hnone
        subst hempty
        have hget : ((QueueOp.create τ).run q).topics.get? τ = some {} :=
          OrdMap.get?_insert_self ..
        refine ⟨Queue.topicOrDefault_of_some hget ▸ h.empty, fun _ => rfl⟩
      · exact hq.congr ((Queue.putTopic_topics ..).trans (if_neg hσ))
  | delete σ =>
      have hσ : τ ≠ σ := fun heq => hkeep (heq ▸ hallow)
      exact hq.congr ((OrdMap.get?_erase ..).trans (if_neg hσ))
  | topic σ op =>
      obtain ⟨t, ht, hpre⟩ := hpre
      have hget : ∀ σ', ((QueueOp.topic σ op).run q).topics.get? σ' =
          if σ' = σ then some (op.run t) else q.topics.get? σ' := fun σ' => by
        simp only [QueueOp.run, Queue.updateTopic_of_some ht]
        exact Queue.putTopic_topics ..
      by_cases hσ : τ = σ
      · subst hσ
        have hrun := (hget τ).trans (if_pos rfl)
        refine ⟨?_, fun hnone => ?_⟩
        · rw [Queue.topicOrDefault_of_some hrun]
          obtain ⟨happend, hpurge⟩ := TopicOp.AllowedBy.of_no_items hallow hitems
          exact h.other (hshape τ t ht) hpre happend hpurge
            (Queue.topicOrDefault_of_some ht ▸ hq.holds)
        · rw [hrun] at hnone
          cases hnone
      · exact hq.congr ((hget τ).trans (if_neg hσ))

theorem produceTopic {t : TopicState} (hshape : TopicShape t) {item : ProduceItem}
    (htopic : item.topic = τ) (hnames : item.NamesOk) {log : List TopicEvent} (ht : I log t) :
    I (log ++ produceEvents t item) (produceTopic t item).1 := by
  rw [produceTopic_fst, produceEvents, ← List.append_assoc]
  refine h.purge item.tsMs (hshape.appended item) ?_
  unfold produceAppended
  split_ifs with hdup
  · rwa [List.append_nil]
  · have hnew : item.producerId ≠ "" → t.dedup.get? item.dedupKey = none := fun hne =>
      OrdMap.contains_eq_false.mp (Bool.eq_false_iff.mpr fun hin => hdup ⟨hne, hin⟩)
    have hoffset : (HermesMq.produceTopic t item).2 = t.nextOffset := by
      unfold HermesMq.produceTopic
      by_cases hid : item.producerId = ""
      · simp [hid]
      · simp [hid, hnew hid]
    rw [hoffset]
    exact h.append hshape htopic hnames hnew ht

theorem produceAll {items : List ProduceItem} (hnames : ∀ item ∈ items, item.NamesOk)
    {q : Queue} (hshape : q.Topics TopicShape) {log : List TopicEvent} (hq : q.Logged I τ log) :
    (q.produceAll items).1.Logged I τ (log ++ q.produceAllEvents τ items) := by
  induction items generalizing q log with
  | nil => rwa [Queue.produceAllEvents, List.append_nil]
  | cons item rest ih =>
      rw [List.forall_mem_cons] at hnames
      rw [Queue.produceAllEvents, ← List.append_assoc]
      have hone : Steps item.request q (q.produceOne item).1 :=
        produceOne_steps (List.mem_singleton.mpr rfl) q
      refine ih hnames.2 (hone.shape hshape) ?_
      have hget : (q.produceOne item).1.topics.get? τ = if τ = item.topic then
          some (HermesMq.produceTopic (q.topicOrDefault item.topic) item).1
          else q.topics.get? τ := Queue.putTopic_topics ..
      by_cases hτ : item.topic = τ
      · rw [if_pos hτ]
        rw [if_pos hτ.symm, hτ] at hget
        refine ⟨?_, fun hnone => ?_⟩
        · rw [Queue.topicOrDefault_of_some hget]
          exact h.produceTopic (Queue.topicOrDefault_shape hshape τ) hτ hnames.1 hq.holds
        · rw [hget] at hnone
          cases hnone
      · rw [if_neg hτ, List.append_nil]
        exact hq.congr (hget.trans (if_neg (Ne.symm hτ)))

theorem apply {q : Queue} (hshape : q.Topics TopicShape) {log : List TopicEvent}
    (hq : q.Logged I τ log) (req : AppRequest) : (q.apply req).1.Logged I τ
      (if req = .deleteTopic τ then [] else log ++ q.topicEvents τ req) := by
  have hbatch : ∀ {items}, q.checkProduce items = .ok () → (q.produceAll items).1.Logged I τ
      (log ++ q.produceAllEvents τ items) := fun hok =>
    h.produceAll (Queue.checkProduce_ok_iff.mp hok).1 hshape hq
  have hquiet : req.items = [] → req ≠ .deleteTopic τ → (q.apply req).1.Logged I τ
      (if req = .deleteTopic τ then [] else log ++ q.topicEvents τ req) := fun hitems hkeep => by
    have hnone : q.topicEvents τ req = [] := by
      rw [Queue.topicEvents, hitems]
      split <;> rfl
    rw [if_neg hkeep, hnone, List.append_nil]
    exact h.steps hitems hkeep (apply_steps q req) hshape hq
  cases req with
  | deleteTopic σ =>
      by_cases hσ : σ = τ
      · subst hσ
        have hget : (q.apply (.deleteTopic σ)).1.topics.get? σ = none := by
          simp [Queue.apply]
        rw [if_pos rfl]
        refine ⟨?_, fun _ => rfl⟩
        rw [Queue.topicOrDefault, hget]
        exact h.empty
      · exact hquiet rfl fun heq => hσ (by cases heq; rfl)
  | produce topic priority contentType payload producerId seq tsMs =>
      rw [if_neg (by rintro ⟨⟩), Queue.topicEvents, AppRequest.items]
      simp only [Queue.apply]
      cases hcheck : q.checkProduce _ with
      | error reason => simpa using hq
      | ok u => exact hbatch hcheck
  | produceMany items =>
      rw [if_neg (by rintro ⟨⟩), Queue.topicEvents, AppRequest.items]
      simp only [Queue.apply]
      cases hcheck : q.checkProduce items with
      | error reason => simpa using hq
      | ok u => exact hbatch hcheck
  | _ => exact hquiet rfl (by rintro ⟨⟩)

/-- The relation holds after every run. -/
theorem run (reqs : List AppRequest) :
    (({} : Queue).run reqs).Logged I τ (topicLog τ reqs) := by
  induction reqs using List.reverseRecOn with
  | nil => exact ⟨h.empty, fun _ => rfl⟩
  | append_singleton reqs req ih =>
      rw [topicLog_snoc, Queue.run_snoc]
      exact h.apply (run_shape reqs) ih req

theorem run_topic (reqs : List AppRequest) {t : TopicState}
    (ht : (({} : Queue).run reqs).topics.get? τ = some t) : I (topicLog τ reqs) t :=
  Queue.topicOrDefault_of_some ht ▸ (h.run reqs).holds

end LogInvariant

/-! ## Offsets and messages -/

/-- The message a produce stores under the offset it gets. -/
def ProduceItem.message (item : ProduceItem) (offset : Offset) : Message :=
  ⟨offset, item.priority, item.contentType, item.payload, item.tsMs⟩

/-- Offsets count the appended messages, up to the last `u64`, and what is
retained are messages of the log. -/
structure LogMatches (log : List TopicEvent) (t : TopicState) : Prop where
  next : t.nextOffset = min (appends log).length u64Max
  offset : ∀ {n item o}, (appends log)[n]? = some (item, o) → o = min n u64Max
  messages : ∀ {o m}, t.messages.get? o = some m →
    ∃ item, (item, o) ∈ appends log ∧ m = item.message o

/-- Every step that does not append. -/
theorem LogMatches.keep {log log' : List TopicEvent} {t t' : TopicState} (h : LogMatches log t)
    (hlog : appends log' = appends log) (hnext : t'.nextOffset = t.nextOffset)
    (hsub : ∀ {o m}, t'.messages.get? o = some m → t.messages.get? o = some m) :
    LogMatches log' t' where
  next := by rw [hlog, hnext, h.next]
  offset hn := h.offset (hlog ▸ hn)
  messages hm := hlog.symm ▸ h.messages (hsub hm)

theorem satAdd_min (n : Nat) : satAdd (min n u64Max) 1 = min (n + 1) u64Max := by
  unfold satAdd
  omega

theorem LogMatches.append {log : List TopicEvent} {t : TopicState} (h : LogMatches log t)
    (item : ProduceItem) :
    LogMatches (log ++ [.appended item t.nextOffset]) (appendMessage t item) where
  next := by
    rw [appendMessage_nextOffset, h.next, appends_append, List.length_append, appends_appended,
      List.length_singleton, satAdd_min]
  offset {n item' o} hn := by
    rw [appends_append, appends_appended] at hn
    rcases Nat.lt_or_ge n (appends log).length with hlt | hge
    · rw [List.getElem?_append_left hlt] at hn
      exact h.offset hn
    · rw [List.getElem?_append_right hge, List.getElem?_singleton] at hn
      split_ifs at hn with hzero
      obtain ⟨-, rfl⟩ := Prod.mk.inj (Option.some.inj hn)
      rw [h.next, show n = (appends log).length by omega]
  messages {o m} hm := by
    rw [appends_append, appends_appended]
    rw [appendMessage_messages, OrdMap.get?_insert] at hm
    split_ifs at hm with ho
    · obtain rfl := Option.some.inj hm
      exact ⟨item, List.mem_append_right _ (ho ▸ List.mem_singleton_self _), ho ▸ rfl⟩
    · obtain ⟨item', hmem, hitem⟩ := h.messages hm
      exact ⟨item', List.mem_append_left _ hmem, hitem⟩

theorem logMatches_invariant (τ : TopicId) : LogInvariant τ LogMatches where
  empty := ⟨rfl, fun hn => by simp at hn, fun hm => by cases hm⟩
  append _ _ _ _ h := h.append _
  purge now _ h := h.keep (by simp) (purgeRetained_nextOffset ..)
    fun hm => ((purgeRetained_cut _ now).sub hm).1
  other _ _ happend _ h := h.keep rfl (TopicOp.run_sub happend _).1 (TopicOp.run_sub happend _).2

theorem LogMatches.next_eq {log : List TopicEvent} {t : TopicState} (h : LogMatches log t)
    (hlt : t.nextOffset < u64Max) : t.nextOffset = (appends log).length := by
  rw [h.next] at hlt ⊢
  exact Nat.min_eq_left ((min_lt_iff.mp hlt).resolve_right (lt_irrefl _)).le

/-- While the topic has not run out of offsets, the log is the list of
messages by offset. -/
theorem LogMatches.offset_eq {log : List TopicEvent} {t : TopicState} (h : LogMatches log t)
    (hlen : (appends log).length ≤ u64Max + 1) {n : Nat} {item : ProduceItem} {o : Offset}
    (hn : (appends log)[n]? = some (item, o)) : o = n := by
  have hlt := (List.getElem?_eq_some_iff.mp hn).1
  rw [h.offset hn]
  exact Nat.min_eq_left (Nat.lt_succ_iff.mp (hlt.trans_le hlen))

theorem LogMatches.message {log : List TopicEvent} {t : TopicState} (h : LogMatches log t)
    (hlen : (appends log).length ≤ u64Max + 1) {o : Offset} {m : Message}
    (hm : t.messages.get? o = some m) :
    ∃ item, (appends log)[o]? = some (item, o) ∧ m = item.message o := by
  obtain ⟨item, hmem, hitem⟩ := h.messages hm
  obtain ⟨n, hn⟩ := List.mem_iff_getElem?.mp hmem
  obtain rfl := h.offset_eq hlen hn
  exact ⟨item, hn, hitem⟩

/-! ## What polls hand out -/

/-- A poll hands out messages that are retained before it. -/
theorem delivered_retained {q : Queue} {req : AppRequest} {τ : TopicId} {γ : GroupId}
    {p : Nat × Nat} (hpoll : req.pollOf? τ γ = some p) {item : Delivered}
    (hitem : item ∈ (q.apply req).2.delivered) :
    ∃ t m, q.topics.get? τ = some t ∧ t.messages.get? item.offset = some m ∧
      item.priority = m.priority ∧ item.contentType = m.contentType ∧
      item.payload = m.payload ∧ item.tsMs = m.tsMs := by
  obtain ⟨ts, d⟩ := p
  obtain ⟨-, -, max, vis, -, hitems, -⟩ := delivered_poll hpoll hitem
  rw [hitems] at hitem
  obtain ⟨t, g0, ht, -, hgroup, -⟩ := delivered_pollGroup hitem
  rw [hgroup, pollGroup] at hitem
  split_ifs at hitem
  · cases hitem
  · obtain ⟨-, m, hm, hdata⟩ := mem_leaseChosen hitem
    obtain ⟨b, hcut, -⟩ := sweepAndReclaim_cut t ts
    exact ⟨t, m, ht, (hcut.sub hm).1, hdata⟩

/-- A topic of a queue whose counters are in bounds. The `n`-th appended
produce got offset `n`; what is retained is an interval of offsets that
ends at `nextOffset`, every watermark lies in it and every leased offset
is retained and not acked; and whatever a poll delivers for an offset is
what was produced under it. -/
theorem topic_is_gapless_log {reqs : List AppRequest} (hb : (({} : Queue).run reqs).Bounded)
    {τ : TopicId} {t : TopicState} (ht : (({} : Queue).run reqs).topics.get? τ = some t) :
    (∀ (n : Nat) item o, (appends (topicLog τ reqs))[n]? = some (item, o) → o = n) ∧
    t.nextOffset = (appends (topicLog τ reqs)).length ∧
    (∀ o, (∃ m, t.messages.get? o = some m) ↔ t.first ≤ o ∧ o < t.nextOffset) ∧
    (∀ γ g, t.groups.get? γ = some g →
      t.first ≤ g.ackWatermark ∧ g.ackWatermark ≤ t.nextOffset ∧
      ∀ o d, g.leasedOffsets.get? o = some d →
        (∃ m, t.messages.get? o = some m) ∧ o ∉ g.ackedAbove) ∧
    (∀ req γ p, req.pollOf? τ γ = some p →
      ∀ x ∈ ((({} : Queue).run reqs).apply req).2.delivered,
        ∃ item, (appends (topicLog τ reqs))[x.offset]? = some (item, x.offset) ∧
          x.priority = item.priority ∧ x.contentType = item.contentType ∧
          x.payload = item.payload ∧ x.tsMs = item.tsMs) := by
  have hmax : maxCounter < u64Max := by decide
  have hnext := (hb.offset ht).trans_lt hmax
  have hshape := run_shape reqs τ t ht
  have hsound := run_healthy (Queue.topicsAt_empty _) reqs τ t ht (hb.lease.trans_lt hmax) hnext
  have hlog := (logMatches_invariant τ).run_topic reqs ht
  have hcount := hlog.next_eq hnext
  have hlen := (hcount ▸ hnext.le).trans (Nat.le_succ _)
  refine ⟨fun n item o hn => hlog.offset_eq hlen hn, hcount, fun o => ⟨?_, ?_⟩, ?_, ?_⟩
  · rintro ⟨m, hm⟩
    exact ⟨first_le_of_get hm, hsound.keys_lt hm⟩
  · rintro ⟨hlo, hhi⟩
    exact hshape.dense o hlo hhi
  · intro γ g hg
    have hgroup := hsound.groups hg
    refine ⟨(hshape.watermark hg).1, hgroup.watermark_le, fun o d hd => ⟨?_, hgroup.unacked o d hd⟩⟩
    obtain ⟨id, hid⟩ := hgroup.backed o d hd
    exact hshape.dense o ((hshape.watermark hg).1.trans (hgroup.leased_ge hd))
      (hgroup.lease_lt hid).2
  · intro req γ p hpoll x hx
    obtain ⟨t', m, ht', hm, hdata⟩ := delivered_retained hpoll hx
    obtain rfl := Option.some.inj (ht.symm.trans ht')
    obtain ⟨item, hitem, rfl⟩ := hlog.message hlen hm
    exact ⟨item, hitem, hdata⟩

/-- The message number `n` of a producer. -/
def nthItem (n : Nat) : ProduceItem := ⟨"t", .default, .text, [.ofNat n], "p", n, 5⟩

/-- Five messages, one of them sent twice, under a cap of four; the first
retained one is acked by the only group. -/
def cappedLog : List AppRequest :=
  [.setRetention "t" 4 0] ++ [0, 1, 1, 2, 3, 4].map (fun n => (nthItem n).request) ++
    [.poll "t" "g" 1 1000 6, .ack "t" "g" 0]

/-- The log has the five, the topic retains what was neither purged nor
reclaimed, and the next poll brings messages of the log. -/
theorem topic_is_gapless_log_capped :
    ∃ t, (({} : Queue).run cappedLog).topics.get? "t" = some t ∧
      appends (topicLog "t" cappedLog) = [0, 1, 2, 3, 4].map (fun n => (nthItem n, n)) ∧
      t.nextOffset = 5 ∧ (∀ o, (∃ m, t.messages.get? o = some m) ↔ 2 ≤ o ∧ o < 5) ∧
      ∀ x ∈ ((({} : Queue).run cappedLog).apply (.poll "t" "g" 2 1000 7)).2.delivered,
        x.payload = (nthItem x.offset).payload := by
  have hlog : appends (topicLog "t" cappedLog) = [0, 1, 2, 3, 4].map fun n => (nthItem n, n) := by
    decide
  have hb : (({} : Queue).run cappedLog).Bounded := (validate_ok_iff.mp (by decide)).1
  have hfirst : ((({} : Queue).run cappedLog).topics.get? "t").map (·.first) = some 2 := by decide
  obtain ⟨t, ht, htwo⟩ := Option.map_eq_some_iff.mp hfirst
  obtain ⟨-, hnext, hretained, -, hpolls⟩ := topic_is_gapless_log hb ht
  rw [hlog] at hnext hpolls
  refine ⟨t, ht, hlog, hnext, fun o => by rw [hretained, htwo, hnext]; rfl, fun x hx => ?_⟩
  have hpoll : (AppRequest.poll "t" "g" 2 1000 7).pollOf? "t" "g" = some (7, 1007) := by decide
  obtain ⟨item, hget, -, -, hpayload, -⟩ := hpolls _ "g" _ hpoll x hx
  obtain ⟨n, -, hn⟩ := List.mem_map.mp (List.mem_of_getElem? hget)
  obtain ⟨rfl, hoffset⟩ := Prod.mk.inj hn
  rw [hpayload, ← hoffset]

end HermesMq
