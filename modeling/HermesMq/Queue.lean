import HermesMq.Topic

/-!
# The replicated queue

`Queue.apply` is the state machine every replica runs over the log: one
request in, the new state and the response out. Requests that break a
limit are refused before anything changes.

`normalize` and `validate` guard the other way a state can enter a node,
the decoding of a snapshot. `Queue.run` applies a list of requests.
-/

namespace HermesMq

/-! ## Name checks -/

def checkName (kind name : String) : Except String Unit :=
  if name.utf8ByteSize > maxNameBytes then
    .error s!"{kind} name is {name.utf8ByteSize} bytes; max is {maxNameBytes}"
  else .ok ()

def checkConsumer (topic group : String) : Except String Unit := do
  checkName "topic" topic
  checkName "group" group

structure Queue where
  topics : OrdMap TopicId TopicState := ∅
  nextLeaseId : LeaseId := 0
deriving DecidableEq

instance : Inhabited TopicState := ⟨{}⟩

instance : Inhabited Queue := ⟨{}⟩

namespace Queue

/-! ## Admission -/

/-- Name and capacity checks for a request that may create one topic. -/
def checkTopic (q : Queue) (topic : TopicId) : Except String Unit := do
  checkName "topic" topic
  if !q.topics.contains topic && q.topics.size ≥ maxTopics then
    .error s!"topic limit of {maxTopics} reached"
  else .ok ()

/-- The loop of `check_produce`: the names of a batch, and the set of
topics it would create. -/
def checkProduceItems (q : Queue) :
    List ProduceItem → Finset TopicId → Except String (Finset TopicId)
  | [], fresh => .ok fresh
  | item :: rest, fresh => do
      checkName "topic" item.topic
      if item.producerId.utf8ByteSize > maxProducerIdBytes then
        .error s!"producer id is {item.producerId.utf8ByteSize} bytes; max is {maxProducerIdBytes}"
      else
        checkProduceItems q rest
          (if q.topics.contains item.topic then fresh else insert item.topic fresh)

/-- Name and capacity checks for a produce, run over the whole batch
before any of it is applied so a rejected batch leaves no partial state. -/
def checkProduce (q : Queue) (items : List ProduceItem) : Except String Unit := do
  let fresh ← checkProduceItems q items ∅
  if q.topics.size + fresh.card > maxTopics then
    .error s!"topic limit of {maxTopics} reached"
  else .ok ()

/-- Whether a request naming this topic can proceed. -/
def topicAdmits (q : Queue) (topic : TopicId) : Bool :=
  q.topics.contains topic || q.topics.size < maxTopics

/-! ## Topic access -/

/-- `self.topics.entry(topic).or_default()`. -/
def topicOrDefault (q : Queue) (topic : TopicId) : TopicState :=
  (q.topics.get? topic).getD {}

def putTopic (q : Queue) (topic : TopicId) (t : TopicState) : Queue :=
  { q with topics := q.topics.insert topic t }

/-- `if let Some(t) = topics.get_mut(topic) { f(t) }`. -/
def updateTopic (q : Queue) (topic : TopicId) (f : TopicState → TopicState) : Queue :=
  match q.topics.get? topic with
  | none => q
  | some t => q.putTopic topic (f t)

def produceOne (q : Queue) (item : ProduceItem) : Queue × Offset :=
  let (t, offset) := produceTopic (q.topicOrDefault item.topic) item
  (q.putTopic item.topic t, offset)

/-- `items.into_iter().map(|item| self.produce_one(item)).collect()`. -/
def produceAll (q : Queue) : List ProduceItem → Queue × List Offset
  | [] => (q, [])
  | item :: rest =>
      let (q, offset) := q.produceOne item
      let (q, offsets) := produceAll q rest
      (q, offset :: offsets)

def poll (q : Queue) (topic : TopicId) (group : GroupId)
    (max visibilityTimeoutMs tsMs : Nat) : Queue × List Delivered :=
  match q.topics.get? topic with
  | none => (q, [])
  | some t =>
      let (t, nextLease, items) :=
        pollTopic t group max visibilityTimeoutMs tsMs q.nextLeaseId
      ({ q.putTopic topic t with nextLeaseId := nextLease }, items)

def ack (q : Queue) (topic : TopicId) (group : GroupId) (leaseId : LeaseId) : Queue :=
  q.updateTopic topic (ackTopic · group leaseId)

def nack (q : Queue) (topic : TopicId) (group : GroupId) (leaseId : LeaseId) : Queue :=
  q.updateTopic topic (nackTopic · group leaseId)

def commit (q : Queue) (topic : TopicId) (group : GroupId) (offset : Offset)
    (nowMs : Option Nat) : Queue :=
  q.updateTopic topic (commitTopic · group offset nowMs)

def reclaimTopic (q : Queue) (topic : TopicId) : Queue :=
  q.updateTopic topic reclaim

/-! ## Applying a request -/

def apply (q : Queue) : AppRequest → Queue × AppResponse
  | .createTopic topic =>
      match q.checkTopic topic with
      | .error reason => (q, .rejected reason)
      | .ok () => (q.putTopic topic (q.topicOrDefault topic), .topicCreated)
  | .deleteTopic topic =>
      ({ q with topics := q.topics.erase topic }, .topicDeleted)
  | .produce topic priority contentType payload producerId seq tsMs =>
      let item : ProduceItem :=
        ⟨topic, priority, contentType, payload, producerId, seq, tsMs⟩
      match q.checkProduce [item] with
      | .error reason => (q, .rejected reason)
      | .ok () =>
          let (q, offset) := q.produceOne item
          (q, .produced offset)
  | .produceMany items =>
      match q.checkProduce items with
      | .error reason => (q, .rejected reason)
      | .ok () =>
          let (q, offsets) := q.produceAll items
          (q, .producedMany offsets)
  | .poll topic group max visibilityTimeoutMs tsMs =>
      match checkConsumer topic group with
      | .error reason => (q, .rejected reason)
      | .ok () =>
          let (q, items) := q.poll topic group max visibilityTimeoutMs tsMs
          (q, .polled items)
  | .pollAuto topic group max visibilityTimeoutMs tsMs =>
      match checkConsumer topic group with
      | .error reason => (q, .rejected reason)
      | .ok () =>
          let (q, items) := q.poll topic group max visibilityTimeoutMs tsMs
          let q := items.foldl (fun q d => q.ack topic group d.leaseId) q
          (q.reclaimTopic topic, .polled items)
  | .ack topic group leaseId =>
      ((q.ack topic group leaseId).reclaimTopic topic, .acked)
  | .ackMany topic group leaseIds =>
      let q := leaseIds.foldl (fun q leaseId => q.ack topic group leaseId) q
      (q.reclaimTopic topic, .acked)
  | .nackMany topic group leaseIds =>
      (leaseIds.foldl (fun q leaseId => q.nack topic group leaseId) q, .nacked)
  | .nack topic group leaseId => (q.nack topic group leaseId, .nacked)
  | .commitOffset topic group offset =>
      match checkConsumer topic group with
      | .error reason => (q, .rejected reason)
      | .ok () => ((q.commit topic group offset none).reclaimTopic topic, .committed)
  | .commitOffsetAt topic group offset tsMs =>
      match checkConsumer topic group with
      | .error reason => (q, .rejected reason)
      | .ok () =>
          ((q.commit topic group offset (some tsMs)).reclaimTopic topic, .committed)
  | .setRateLimit topic rateMilliPerSec burst =>
      match q.checkTopic topic with
      | .error reason => (q, .rejected reason)
      | .ok () =>
          let t := { q.topicOrDefault topic with
            rateMilliPerSec := rateMilliPerSec, burst := burst }
          (q.putTopic topic t, .rateLimitSet)
  | .setRetention topic maxMessages maxAgeMs =>
      match q.checkTopic topic with
      | .error reason => (q, .rejected reason)
      | .ok () =>
          let t := { q.topicOrDefault topic with
            retainMaxMessages := maxMessages, retainMaxAgeMs := maxAgeMs }
          (q.putTopic topic t, .retentionSet)

/-- The state after a list of requests. -/
def run (q : Queue) (reqs : List AppRequest) : Queue :=
  reqs.foldl (fun q req => (q.apply req).1) q

@[simp] theorem run_nil (q : Queue) : q.run [] = q := rfl

@[simp] theorem run_cons (q : Queue) (req : AppRequest) (reqs : List AppRequest) :
    q.run (req :: reqs) = (q.apply req).1.run reqs := rfl

theorem run_append (q : Queue) (pre post : List AppRequest) :
    q.run (pre ++ post) = (q.run pre).run post :=
  List.foldl_append

theorem run_snoc (q : Queue) (pre : List AppRequest) (req : AppRequest) :
    q.run (pre ++ [req]) = ((q.run pre).apply req).1 := by
  rw [run_append]; rfl

/-! ## Reading -/

def rateConfig (q : Queue) (topic : TopicId) : Option (Nat × Nat) :=
  (q.topics.get? topic).bind fun t =>
    if t.rateMilliPerSec > 0 then some (t.rateMilliPerSec, t.burst) else none

def hasDeliverable (q : Queue) (topic : TopicId) (group : GroupId) (nowMs : Nat) : Bool :=
  match q.topics.get? topic with
  | none => false
  | some t =>
      match t.groups.get? group with
      | none => t.messages.size ≠ 0
      | some g =>
          (t.messages.splitOff g.ackWatermark).entries.any fun (offset, _) =>
            decide (offset ∉ g.ackedAbove)
              && (g.leasedOffsets.get? offset).all (· ≤ nowMs)

/-! ## Decoded states -/

/-- Lower a watermark that an old release let past the end of its topic. -/
def normalize (q : Queue) : Queue :=
  { q with topics := q.topics.mapVals fun _ t =>
      { t with groups := t.groups.mapVals fun _ g =>
          if g.ackWatermark > t.nextOffset then
            { g with ackWatermark := t.nextOffset }
          else g } }

/-- `if bad { return Err(reason) }`. -/
def refuseIf (bad : Prop) [Decidable bad] (reason : String) : Except String Unit :=
  if bad then .error reason else .ok ()

/-- `if let Some(x) = extreme { if bad(x) { return Err(reason(x)) } }`. -/
def refuseExtreme (extreme : Option Nat) (bad : Nat → Prop) [DecidablePred bad]
    (reason : Nat → String) : Except String Unit :=
  match extreme with
  | none => .ok ()
  | some x => refuseIf (bad x) (reason x)

/-- `acked_above.iter().next_back()`. -/
def highestAcked (g : GroupState) : Option Offset := g.ackedAbove.max

/-- `acked_above.iter().next()`. -/
def lowestAcked (g : GroupState) : Option Offset := g.ackedAbove.min

/-- The group loop of `validate`. -/
def validateGroup (nextLeaseId : LeaseId) (t : TopicState) (name : TopicId)
    (group : GroupId) (g : GroupState) : Except String Unit := do
  refuseIf (g.pollCount > maxCounter)
    s!"topic {name} group {group}: poll_count is {g.pollCount}"
  refuseIf (g.ackWatermark > t.nextOffset)
    s!"topic {name} group {group}: watermark {g.ackWatermark} is above next_offset {t.nextOffset}"
  refuseExtreme (highestAcked g) (· ≥ t.nextOffset) fun highest =>
    s!"topic {name} group {group}: acked_above holds {highest} at or above next_offset {t.nextOffset}"
  g.inFlight.entries.forM fun (leaseId, lease) => do
    refuseIf (leaseId ≥ nextLeaseId)
      s!"topic {name} group {group}: lease id {leaseId} is at or above next_lease_id {nextLeaseId}"
    refuseIf (lease.offset ≥ t.nextOffset)
      s!"topic {name} group {group}: lease holds offset {lease.offset} at or above next_offset {t.nextOffset}"
  let byLease : OrdMap Offset Nat :=
    .ofList (g.inFlight.values.map fun l => (l.offset, l.deadlineMs))
  refuseIf (byLease.size ≠ g.inFlight.size)
    s!"topic {name} group {group}: two leases share one offset"
  refuseIf (byLease ≠ g.leasedOffsets)
    s!"topic {name} group {group}: in_flight and leased_offsets disagree"
  refuseIf (g.ackWatermark ∈ g.ackedAbove)
    s!"topic {name} group {group}: acked_above still holds the watermark {g.ackWatermark}"
  refuseExtreme (lowestAcked g) (· < g.ackWatermark) fun lowest =>
    s!"topic {name} group {group}: acked_above holds {lowest} below watermark {g.ackWatermark}"
  refuseExtreme g.leasedOffsets.firstKey? (· < g.ackWatermark) fun lowest =>
    s!"topic {name} group {group}: lease at {lowest} is below watermark {g.ackWatermark}"

/-- The topic loop of `validate`. -/
def validateTopic (nextLeaseId : LeaseId) (name : TopicId) (t : TopicState) :
    Except String Unit := do
  refuseIf (t.nextOffset > maxCounter) s!"topic {name}: next_offset is {t.nextOffset}"
  t.messages.entries.forM fun (offset, message) =>
    refuseIf (message.offset ≠ offset)
      s!"topic {name}: message stored at {offset} carries offset {message.offset}"
  refuseExtreme t.messages.lastKey? (· ≥ t.nextOffset) fun highest =>
    s!"topic {name}: message offset {highest} is at or above next_offset {t.nextOffset}"
  refuseIf (t.dedup.size ≠ t.dedupOrder.length)
    s!"topic {name}: dedup has {t.dedup.size} entries but dedup_order has {t.dedupOrder.length}"
  refuseIf (t.dedup.size > dedupCapacity)
    s!"topic {name}: dedup holds {t.dedup.size} entries"
  refuseIf (t.dedupOrder.toFinset.card ≠ t.dedupOrder.length)
    s!"topic {name}: dedup_order holds a duplicate key"
  t.dedupOrder.forM fun key =>
    refuseIf (t.dedup.contains key = false)
      s!"topic {name}: dedup_order key is missing from dedup"
  t.groups.entries.forM fun (group, g) => validateGroup nextLeaseId t name group g

/-- Whether a decoded state is one the queue could have produced itself. -/
def validate (q : Queue) : Except String Unit := do
  refuseIf (q.nextLeaseId > maxCounter) s!"next_lease_id is {q.nextLeaseId}"
  q.topics.entries.forM fun (name, t) => validateTopic q.nextLeaseId name t

end Queue

end HermesMq
