import HermesMq.TopicLimit
import HermesMq.TopicSettings
import HermesMq.TopicLog

/-!
# What the queue is for

The broker as its clients may think of it. A topic is the log of everything
that was appended to it; an offset is a place in that log. A consumer group
is the set of offsets it is done with and the leases it has out. There are no
watermarks, no tables of acked and of leased offsets, no dedup keys, no count
of polls and no selection with heaps.

`Broker.Serves` says which answers to a request are right and what they leave
behind. It leaves two things open: which of the messages that are available a
poll hands out when there are more than it asks for, and the text a refusal
comes with. `BrokerRefinement` shows that the queue serves its requests so.
-/

namespace HermesMq

/-! ## Consumer groups -/

@[ext] structure Consumer where
  done : Set Offset
  leases : LeaseId → Option Lease
  activeMs : Nat

namespace Consumer

open Classical in
/-- The offsets in `s` are done with, and leases on them are void. -/
noncomputable def finish (c : Consumer) (s : Set Offset) : Consumer :=
  { c with done := c.done ∪ s
           leases := fun id => (c.leases id).filter fun l => l.offset ∉ s }

theorem finish_leases_eq_some {c : Consumer} {s : Set Offset} {id : LeaseId} {l : Lease} :
    (c.finish s).leases id = some l ↔ c.leases id = some l ∧ l.offset ∉ s := by
  simp [finish, Option.filter_eq_some_iff]

theorem finish_eq_self {c : Consumer} {s : Set Offset} (hdone : s ⊆ c.done)
    (hleases : ∀ id l, c.leases id = some l → l.offset ∉ s) : c.finish s = c := by
  refine Consumer.ext (Set.union_eq_left.mpr hdone) (funext fun id => Option.ext fun l => ?_) rfl
  rw [finish_leases_eq_some]
  exact and_iff_left_of_imp (hleases id l)

/-- A lease that is not out, or no longer, is ignored. -/
noncomputable def ack (c : Consumer) (leaseId : LeaseId) : Consumer :=
  (c.leases leaseId).elim c fun l => c.finish {l.offset}

def nack (c : Consumer) (leaseId : LeaseId) : Consumer :=
  { c with leases := fun id => if id = leaseId then none else c.leases id }

def expire (c : Consumer) (nowMs : Nat) : Consumer :=
  { c with leases := fun id => (c.leases id).filter fun l => nowMs < l.deadlineMs }

def touch (c : Consumer) (nowMs : Option Nat) : Consumer :=
  { c with activeMs := nowMs.elim c.activeMs (max c.activeMs) }

/-- A group without an activity clock gets one. -/
def stamp (c : Consumer) (nowMs : Nat) : Consumer :=
  { c with activeMs := if c.activeMs = 0 then nowMs else c.activeMs }

def Idle (c : Consumer) (nowMs : Nat) : Prop :=
  groupIdleExpireMs < nowMs - c.activeMs ∧
    ∀ id l, c.leases id = some l → l.deadlineMs ≤ nowMs

def Holds (c : Consumer) (o : Offset) : Prop :=
  ∃ id l, c.leases id = some l ∧ l.offset = o

/-- The leases for what a poll hands out. -/
def take (c : Consumer) (deadlineMs : Nat) (items : List Delivered) : Consumer :=
  { c with leases := fun id =>
      ((items.find? (·.leaseId = id)).map fun d => ⟨d.offset, deadlineMs⟩).or (c.leases id) }

theorem take_cons (c : Consumer) (deadlineMs : Nat) {item : Delivered} {items : List Delivered}
    (hfresh : ∀ d ∈ items, d.leaseId ≠ item.leaseId) :
    c.take deadlineMs (item :: items) = (c.take deadlineMs [item]).take deadlineMs items := by
  refine Consumer.ext rfl (funext fun id => ?_) rfl
  by_cases hid : item.leaseId = id
  · have hnone : items.find? (·.leaseId = id) = none := by
      rw [List.find?_eq_none]
      intro d hd heq
      exact hfresh d hd ((of_decide_eq_true heq).trans hid.symm)
    simp [take, hid, hnone]
  · simp [take, hid]

end Consumer

/-! ## Topics -/

/-- The limits that apply: a topic without any has a cap all the same. -/
def TopicSettings.retention (s : TopicSettings) : Nat × Nat :=
  if s.retainMaxMessages = 0 ∧ s.retainMaxAgeMs = 0 then (defaultRetainMaxMessages, 0)
  else (s.retainMaxMessages, s.retainMaxAgeMs)

structure BrokerTopic where
  log : List ProduceItem := []
  /-- What is below is no longer there. -/
  kept : Offset := 0
  /-- What is below has gone for its age or for the cap. -/
  retired : Offset := 0
  consumers : OrdMap GroupId Consumer := ∅
  settings : TopicSettings := {}

namespace BrokerTopic

/-- The item repeats the message at `o`: retention has not come that far, and
not too many messages with a producer have come since. -/
def Recalls (a : BrokerTopic) (item : ProduceItem) (o : Offset) : Prop :=
  item.producerId ≠ "" ∧ a.retired ≤ o ∧
    (∃ earlier, a.log[o]? = some earlier ∧ earlier.dedupKey = item.dedupKey) ∧
    ((a.log.drop (o + 1)).filter (·.producerId ≠ "")).length < dedupCapacity

/-- How many messages are too old or too many. Those that are too old count
up to the first that is not. -/
def surplus (a : BrokerTopic) (nowMs : Nat) : Nat :=
  let (maxMessages, maxAgeMs) := a.settings.retention
  let rest := a.log.drop a.kept
  max (if maxAgeMs > 0 then (rest.takeWhile fun item => nowMs - item.tsMs > maxAgeMs).length else 0)
    (if maxMessages > 0 then rest.length - maxMessages else 0)

/-- Retention: the surplus goes, and every group is done with it. -/
noncomputable def retain (a : BrokerTopic) (nowMs : Nat) : BrokerTopic :=
  if a.surplus nowMs = 0 then a
  else
    let boundary := a.kept + a.surplus nowMs
    { a with kept := boundary, retired := boundary
             consumers := a.consumers.mapVals fun _ c => c.finish (Set.Iio boundary) }

def Produces (a : BrokerTopic) (item : ProduceItem) (o : Offset) (a' : BrokerTopic) : Prop :=
  (a.Recalls item o ∧ a' = a.retain item.tsMs) ∨
    (∀ o', ¬a.Recalls item o') ∧ o = a.log.length ∧
      a' = { a with log := a.log ++ [item] }.retain item.tsMs

/-- Every group is done with what is below `n`. -/
def Finished (a : BrokerTopic) (n : Offset) : Prop :=
  n ≤ a.log.length ∧ ∀ γ c, a.consumers.get? γ = some c → Set.Iio n ⊆ c.done

/-- What every group is done with goes, if there are groups. -/
def Reclaims (a a' : BrokerTopic) : Prop :=
  (a.consumers = ∅ ∧ a' = a) ∨
    a.consumers ≠ ∅ ∧ ∃ n, IsGreatest {n | a.Finished n} n ∧ a' = { a with kept := n }

open Classical in
/-- The groups that are not idle. -/
noncomputable def awake (a : BrokerTopic) (nowMs : Nat) : OrdMap GroupId Consumer :=
  (a.consumers.mapVals fun _ c => c.stamp nowMs).filter fun _ c => ¬c.Idle nowMs

def Sweeps (a : BrokerTopic) (nowMs : Nat) (a' : BrokerTopic) : Prop :=
  if (a.awake nowMs).size = a.consumers.size then a' = { a with consumers := a.awake nowMs }
  else Reclaims { a with consumers := a.awake nowMs } a'

/-- There is no room for one more group. -/
def Full (a : BrokerTopic) (γ : GroupId) : Prop :=
  a.consumers.get? γ = none ∧ maxGroupsPerTopic ≤ a.consumers.size

/-- The group as it is, or a new one that has everything before it. -/
def Enters (a : BrokerTopic) (γ : GroupId) (nowMs : Option Nat) (c : Consumer) : Prop :=
  a.consumers.get? γ = some c ∨
    a.consumers.get? γ = none ∧ a.consumers.size < maxGroupsPerTopic ∧
      c = ⟨Set.Iio a.kept, fun _ => none, nowMs.getD 0⟩

def Available (a : BrokerTopic) (c : Consumer) (o : Offset) : Prop :=
  a.kept ≤ o ∧ o < a.log.length ∧ o ∉ c.done ∧ ¬c.Holds o

/-- What a poll may hand out, with leases numbered from `n`: messages that
are available, all of them if there are not more than it asks for, the
urgent ones first and of one priority the older ones. -/
structure Delivers (a : BrokerTopic) (c : Consumer) (max : Nat) (n : LeaseId)
    (items : List Delivered) : Prop where
  leaseIds : items.map (·.leaseId) = List.range' n items.length
  available : ∀ d ∈ items, a.Available c d.offset
  message : ∀ d ∈ items, ∃ item, a.log[d.offset]? = some item ∧
    d = deliveredItem d.leaseId d.offset (item.message d.offset)
  ordered : items.Pairwise fun x y =>
    y.priority < x.priority ∨ x.priority = y.priority ∧ x.offset < y.offset
  length_le : items.length ≤ max
  all : items.length < max → ∀ o, a.Available c o → o ∈ items.map (·.offset)

/-- There is something for the group, a new one included. -/
def Waits (a : BrokerTopic) (γ : GroupId) (nowMs : Nat) : Prop :=
  ∃ o, a.Available
    (((a.consumers.get? γ).getD ⟨Set.Iio a.kept, fun _ => none, 0⟩).expire nowMs) o

def put (a : BrokerTopic) (γ : GroupId) (c : Consumer) : BrokerTopic :=
  { a with consumers := a.consumers.insert γ c }

def Polls (γ : GroupId) (max visibilityTimeoutMs tsMs : Nat) (n : LeaseId)
    (items : List Delivered) (a a' : BrokerTopic) : Prop :=
  ∃ swept, a.Sweeps tsMs swept ∧
    (swept.Full γ ∧ items = [] ∧ a' = swept ∨
      ∃ c, swept.Enters γ (some tsMs) c ∧
        let c := (c.expire tsMs).touch (some tsMs)
        swept.Delivers c max n items ∧
          a' = swept.put γ (c.take (satAdd tsMs (min visibilityTimeoutMs maxVisibilityMs)) items))

def update (a : BrokerTopic) (γ : GroupId) (f : Consumer → Consumer) : BrokerTopic :=
  { a with consumers := a.consumers.modify γ f }

def Acks (γ : GroupId) (leaseIds : List LeaseId) (a a' : BrokerTopic) : Prop :=
  Reclaims (a.update γ fun c => leaseIds.foldl Consumer.ack c) a'

def Nacks (γ : GroupId) (leaseIds : List LeaseId) (a a' : BrokerTopic) : Prop :=
  a' = a.update γ fun c => leaseIds.foldl Consumer.nack c

/-- A commit does not reach past the end of the log. -/
def Commits (γ : GroupId) (offset : Offset) (nowMs : Option Nat) (a a' : BrokerTopic) : Prop :=
  ∃ swept committed, nowMs.elim (swept = a) (a.Sweeps · swept) ∧
    (swept.Full γ ∧ committed = swept ∨
      ∃ c, swept.Enters γ nowMs c ∧
        committed = swept.put γ ((c.finish (Set.Iio (min offset swept.log.length))).touch nowMs)) ∧
    committed.Reclaims a'

end BrokerTopic

/-! ## The broker -/

structure Broker where
  topics : OrdMap TopicId BrokerTopic := ∅
  /-- How many leases were handed out. -/
  issued : LeaseId := 0

namespace Broker

def topicOrNew (b : Broker) (τ : TopicId) : BrokerTopic := (b.topics.get? τ).getD {}

def put (b : Broker) (τ : TopicId) (a : BrokerTopic) : Broker :=
  { b with topics := b.topics.insert τ a }

/-- The topic changes in one of the ways of `R`; one that is not there stays
away. -/
def At (b : Broker) (τ : TopicId) (R : BrokerTopic → BrokerTopic → Prop) (b' : Broker) : Prop :=
  (b.topics.get? τ = none ∧ b' = b) ∨
    ∃ a a', b.topics.get? τ = some a ∧ R a a' ∧ b' = b.put τ a'

/-- The messages get their offsets one after the other. -/
inductive Takes : Broker → List ProduceItem → List Offset → Broker → Prop
  | nil (b : Broker) : Takes b [] [] b
  | cons {b b' : Broker} {item : ProduceItem} {o : Offset} {a : BrokerTopic}
      {items : List ProduceItem} {os : List Offset}
      (hproduces : (b.topicOrNew item.topic).Produces item o a)
      (hrest : Takes (b.put item.topic a) items os b') : Takes b (item :: items) (o :: os) b'

def Hands (b : Broker) (τ : TopicId) (γ : GroupId) (max visibilityTimeoutMs tsMs : Nat)
    (items : List Delivered) (b' : Broker) : Prop :=
  (b.topics.get? τ = none → items = []) ∧
    ∃ b₁, b.At τ (BrokerTopic.Polls γ max visibilityTimeoutMs tsMs b.issued items) b₁ ∧
      b' = { b₁ with issued := b.issued + items.length }

/-- The names of the request are short, and there is room for the topics it
may open. -/
def Admits (b : Broker) : AppRequest → Prop
  | .createTopic topic | .setRateLimit topic _ _ | .setRetention topic _ _ =>
      topic.utf8ByteSize ≤ maxNameBytes ∧
        (b.topics.contains topic = true ∨ b.topics.size < maxTopics)
  | req@(.produce ..) | req@(.produceMany _) =>
      (∀ item ∈ req.items, item.NamesOk) ∧
        b.topics.size + ((req.items.map (·.topic)).toFinset.filter
          fun topic => b.topics.contains topic = false).card ≤ maxTopics
  | .poll topic group _ _ _ | .pollAuto topic group _ _ _ | .commitOffset topic group _
  | .commitOffsetAt topic group _ _ =>
      topic.utf8ByteSize ≤ maxNameBytes ∧ group.utf8ByteSize ≤ maxNameBytes
  | .deleteTopic _ | .ack .. | .ackMany .. | .nack .. | .nackMany .. => True

/-- The answers to a request that is admitted. -/
def Grants (b : Broker) (req : AppRequest) (response : AppResponse) (b' : Broker) : Prop :=
  match req with
  | .createTopic topic =>
      response = .topicCreated ∧ b' = b.put topic (b.topicOrNew topic)
  | .deleteTopic topic =>
      response = .topicDeleted ∧ b' = { b with topics := b.topics.erase topic }
  | .produce .. => ∃ o, response = .produced o ∧ b.Takes req.items [o] b'
  | .produceMany items => ∃ os, response = .producedMany os ∧ b.Takes items os b'
  | .poll topic group max visibilityTimeoutMs tsMs =>
      ∃ items, response = .polled items ∧ b.Hands topic group max visibilityTimeoutMs tsMs items b'
  | .pollAuto topic group max visibilityTimeoutMs tsMs =>
      ∃ items b₁, response = .polled items ∧
        b.Hands topic group max visibilityTimeoutMs tsMs items b₁ ∧
        b₁.At topic (BrokerTopic.Acks group (items.map (·.leaseId))) b'
  | .ack topic group leaseId =>
      response = .acked ∧ b.At topic (BrokerTopic.Acks group [leaseId]) b'
  | .ackMany topic group leaseIds =>
      response = .acked ∧ b.At topic (BrokerTopic.Acks group leaseIds) b'
  | .nack topic group leaseId =>
      response = .nacked ∧ b.At topic (BrokerTopic.Nacks group [leaseId]) b'
  | .nackMany topic group leaseIds =>
      response = .nacked ∧ b.At topic (BrokerTopic.Nacks group leaseIds) b'
  | .commitOffset topic group offset =>
      response = .committed ∧ b.At topic (BrokerTopic.Commits group offset none) b'
  | .commitOffsetAt topic group offset tsMs =>
      response = .committed ∧ b.At topic (BrokerTopic.Commits group offset (some tsMs)) b'
  | .setRateLimit topic .. =>
      response = .rateLimitSet ∧ b' = b.put topic
        { b.topicOrNew topic with settings := (b.topicOrNew topic).settings.after topic req }
  | .setRetention topic .. =>
      response = .retentionSet ∧ b' = b.put topic
        { b.topicOrNew topic with settings := (b.topicOrNew topic).settings.after topic req }

/-- A request that is not admitted is refused and changes nothing. -/
def Serves (b : Broker) (req : AppRequest) (response : AppResponse) (b' : Broker) : Prop :=
  (¬b.Admits req ∧ response.Rejected ∧ b' = b) ∨ b.Admits req ∧ b.Grants req response b'

def Waits (b : Broker) (τ : TopicId) (γ : GroupId) (nowMs : Nat) : Prop :=
  ∃ a, b.topics.get? τ = some a ∧ a.Waits γ nowMs

inductive Runs : Broker → List AppRequest → List AppResponse → Broker → Prop
  | nil (b : Broker) : Runs b [] [] b
  | cons {b b₁ b₂ : Broker} {req : AppRequest} {response : AppResponse} {reqs : List AppRequest}
      {responses : List AppResponse} (hserves : b.Serves req response b₁)
      (hruns : Runs b₁ reqs responses b₂) : Runs b (req :: reqs) (response :: responses) b₂

end Broker

end HermesMq
