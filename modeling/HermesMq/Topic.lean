import HermesMq.Group
import Mathlib.Data.List.Sort
import Mathlib.Data.String.Basic

/-!
# Topic state

The per-topic half of the queue: appending a message, retention, the
reclaiming of messages every group is past, the idle-group sweep, and
the four consumer operations (poll, ack, nack, commit).

The source passes `&mut TopicState`; here each function returns the new
state. A `get_mut` on the group map followed by updates is a lookup and
an `insert` of the updated group.
-/

namespace HermesMq

/-! ## Limits -/

def dedupCapacity : Nat := 100000

def reservedDen : Nat := 4

def defaultRetainMaxMessages : Nat := 1000000

def groupGcThreshold : Nat := 1024

def groupIdleExpireMs : Nat := 7 * 24 * 60 * 60 * 1000

def maxNameBytes : Nat := 256

def maxProducerIdBytes : Nat := 256

def maxTopics : Nat := 10000

def maxGroupsPerTopic : Nat := 1000

def maxVisibilityMs : Nat := 12 * 60 * 60 * 1000

/-- Ceiling for every counter a snapshot can set. -/
def maxCounter : Nat := 2 ^ 62

structure TopicState where
  nextOffset : Offset := 0
  messages : OrdMap Offset Message := ∅
  dedup : OrdMap DedupKey Offset := ∅
  dedupOrder : List DedupKey := []
  groups : OrdMap GroupId GroupState := ∅
  rateMilliPerSec : Nat := 0
  burst : Nat := 0
  retainMaxMessages : Nat := 0
  retainMaxAgeMs : Nat := 0
deriving DecidableEq

/-- The lowest retained offset, `next_offset` when nothing is retained. -/
def TopicState.first (t : TopicState) : Offset :=
  t.messages.firstKey?.getD t.nextOffset

/-! ## Retention -/

def effectiveRetention (t : TopicState) : Nat × Nat :=
  if t.retainMaxMessages = 0 ∧ t.retainMaxAgeMs = 0 then
    (defaultRetainMaxMessages, 0)
  else (t.retainMaxMessages, t.retainMaxAgeMs)

/-- The leading messages older than `maxAgeMs`; the scan stops at the
first one that is not. -/
def agedOffsets (nowMs maxAgeMs : Nat) : List (Offset × Message) → Finset Offset
  | [] => ∅
  | (offset, message) :: rest =>
      if nowMs - message.tsMs > maxAgeMs then
        insert offset (agedOffsets nowMs maxAgeMs rest)
      else ∅

/-- Add the lowest `need` offsets not yet in `purge`. -/
def purgeLowest : Nat → List Offset → Finset Offset → Finset Offset
  | _, [], purge => purge
  | 0, _ :: _, purge => purge
  | need + 1, offset :: rest, purge =>
      if offset ∈ purge then purgeLowest (need + 1) rest purge
      else purgeLowest need rest (insert offset purge)

def purgeSet (t : TopicState) (nowMs : Nat) : Finset Offset :=
  let (maxMessages, maxAgeMs) := effectiveRetention t
  let purge :=
    if maxAgeMs > 0 then agedOffsets nowMs maxAgeMs t.messages.entries else ∅
  if maxMessages > 0 then
    let kept := t.messages.size - purge.card
    if kept > maxMessages then
      purgeLowest (kept - maxMessages) t.messages.keys purge
    else purge
  else purge

def pruneDedupLoop (boundary : Offset) :
    List DedupKey → OrdMap DedupKey Offset → List DedupKey × OrdMap DedupKey Offset
  | [], dedup => ([], dedup)
  | key :: rest, dedup =>
      if (dedup.get? key).all (· < boundary) then
        pruneDedupLoop boundary rest (dedup.erase key)
      else (key :: rest, dedup)

/-- Drop dedup keys for messages retention has already removed. -/
def pruneDedup (t : TopicState) (boundary : Offset) : TopicState :=
  let (order, dedup) := pruneDedupLoop boundary t.dedupOrder t.dedup
  { t with dedup := dedup, dedupOrder := order }

def purgeRetained (t : TopicState) (nowMs : Nat) : TopicState :=
  let purge := purgeSet t nowMs
  if purge = ∅ then t
  else
    let t := { t with messages := t.messages.filter fun offset _ => offset ∉ purge }
    let boundary := t.first
    let t := { t with
      groups := t.groups.mapVals fun _ g =>
        if boundary > g.ackWatermark then g.advanceWatermark boundary else g }
    pruneDedup t boundary

/-! ## Producing -/

/-- `while dedup_order.len() > DEDUP_CAPACITY`: evict the oldest keys. -/
def evictDedup :
    List DedupKey → OrdMap DedupKey Offset → List DedupKey × OrdMap DedupKey Offset
  | [], dedup => ([], dedup)
  | key :: rest, dedup =>
      if (key :: rest).length > dedupCapacity then
        evictDedup rest (dedup.erase key)
      else (key :: rest, dedup)

def ProduceItem.dedupKey (item : ProduceItem) : DedupKey :=
  toLex (item.producerId, item.seq)

/-- The appending half of `produce_one`: store the message under the next
offset and remember its dedup key. -/
def appendMessage (t : TopicState) (item : ProduceItem) : TopicState :=
  let offset := t.nextOffset
  let t := { t with
    nextOffset := satAdd t.nextOffset 1
    messages := t.messages.insert offset
      ⟨offset, item.priority, item.contentType, item.payload, item.tsMs⟩ }
  if item.producerId ≠ "" then
    let (order, dedup) :=
      evictDedup (t.dedupOrder ++ [item.dedupKey]) (t.dedup.insert item.dedupKey offset)
    { t with dedup := dedup, dedupOrder := order }
  else t

/-- `produce_one` on the topic the item names. Retention runs on a
duplicate too, so a producer that only re-sends cannot hold a topic
above its cap. -/
def produceTopic (t : TopicState) (item : ProduceItem) : TopicState × Offset :=
  let duplicate :=
    if item.producerId ≠ "" then t.dedup.get? item.dedupKey else none
  match duplicate with
  | some offset => (purgeRetained t item.tsMs, offset)
  | none => (purgeRetained (appendMessage t item) item.tsMs, t.nextOffset)

/-! ## Reclaiming and idle groups -/

def gcIdleGroups (t : TopicState) : TopicState :=
  if t.groups.size ≤ groupGcThreshold ∨ t.messages.size ≠ 0 then t
  else
    { t with groups := t.groups.filter fun _ g =>
        !(g.ackWatermark ≥ t.nextOffset && g.inFlight.size = 0
          && g.leasedOffsets.size = 0 && g.ackedAbove.card = 0) }

/-- Drop the messages below every group's watermark. -/
def reclaimMessages (t : TopicState) : TopicState :=
  match (t.groups.values.map (·.ackWatermark)).min? with
  | none => t
  | some boundary =>
      if t.messages.firstKey?.any (boundary > ·) then
        { t with messages := t.messages.splitOff boundary }
      else t

def reclaim (t : TopicState) : TopicState := gcIdleGroups (reclaimMessages t)

/-- The sweep keeps a group that was active within the idle span or that
still holds an unexpired lease. -/
def keptBySweep (nowMs : Nat) (g : GroupState) : Bool :=
  nowMs - g.lastActiveMs ≤ groupIdleExpireMs
    || g.inFlight.values.any (fun l => l.deadlineMs > nowMs)

/-- Stamp groups that have no activity clock, then drop the idle ones;
the flag says whether any was dropped. -/
def sweepIdleGroups (t : TopicState) (nowMs : Nat) : TopicState × Bool :=
  let stamped := t.groups.mapVals fun _ g => g.stamp nowMs
  let kept := stamped.filter fun _ g => keptBySweep nowMs g
  ({ t with groups := kept }, kept.size ≠ stamped.size)

/-- `if sweep_idle_groups(t, now) { reclaim(t) }`. -/
def sweepAndReclaim (t : TopicState) (nowMs : Nat) : TopicState :=
  let (t, swept) := sweepIdleGroups t nowMs
  if swept then reclaim t else t

/-! ## Consumer operations -/

/-- The state a group starts in: everything retained is ahead of it. -/
def freshGroup (t : TopicState) (nowMs : Option Nat) : GroupState :=
  { ackWatermark := t.first, lastActiveMs := nowMs.getD 0 }

/-- The group's state, a fresh one if the topic has room for another;
`none` when the topic is full and this name is not one of its groups. -/
def groupEntry (t : TopicState) (group : GroupId) (nowMs : Option Nat) :
    Option GroupState :=
  if !t.groups.contains group && t.groups.size ≥ maxGroupsPerTopic then none
  else some ((t.groups.get? group).getD (freshGroup t nowMs))

def putGroup (t : TopicState) (group : GroupId) (g : GroupState) : TopicState :=
  { t with groups := t.groups.insert group g }

abbrev Ranked := Priority × Offset

/-- The heap's order: the element `pop` removes is the least, lowest
priority first and among equals the highest offset. -/
def rankLe (a b : Ranked) : Prop :=
  a.1 < b.1 ∨ (a.1 = b.1 ∧ b.2 ≤ a.2)

instance : DecidableRel rankLe := fun _ _ => inferInstanceAs (Decidable (_ ∨ _))

/-- `top.push(x); if top.len() > slots { top.pop(); }`, the heap as the
ascending list of its elements. -/
def pushBounded (slots : Nat) (top : List Ranked) (x : Ranked) : List Ranked :=
  let top := top.orderedInsert rankLe x
  if top.length > slots then top.tail else top

structure Selection where
  earliest : List Ranked := []
  top : List Ranked := []

def deliverableTo (g : GroupState) (offset : Offset) : Bool :=
  !(decide (offset ∈ g.ackedAbove) || g.leasedOffsets.contains offset)

/-- One pass over the messages from the watermark on: the first `max`
deliverable ones and the `slots` best ranked ones. -/
def selectLoop (g : GroupState) (max slots : Nat) :
    List (Offset × Message) → Selection → Selection
  | [], s => s
  | (offset, message) :: rest, s =>
      if !deliverableTo g offset then selectLoop g max slots rest s
      else
        let x : Ranked := (message.priority, offset)
        if s.earliest.length < max then
          selectLoop g max slots rest
            { earliest := s.earliest ++ [x]
              top := if slots > 0 then pushBounded slots s.top x else s.top }
        else if slots = 0 then s
        else selectLoop g max slots rest { s with top := pushBounded slots s.top x }

/-- `if chosen_set.insert(item.1) { chosen.push(item) }`. -/
def pushNew (acc : Finset Offset × List Ranked) (item : Ranked) :
    Finset Offset × List Ranked :=
  if item.2 ∈ acc.1 then acc else (insert item.2 acc.1, acc.2 ++ [item])

def fillEarliest (max : Nat) :
    List Ranked → Finset Offset × List Ranked → Finset Offset × List Ranked
  | [], acc => acc
  | item :: rest, acc =>
      if acc.2.length ≥ max then acc else fillEarliest max rest (pushNew acc item)

/-- Delivery order: priority descending, then offset ascending. -/
def deliveryLe (a b : Ranked) : Prop :=
  b.1 < a.1 ∨ (a.1 = b.1 ∧ a.2 ≤ b.2)

instance : DecidableRel deliveryLe := fun _ _ => inferInstanceAs (Decidable (_ ∨ _))

/-- The offsets a poll of at most `max` messages takes; `pollCount` is the
group's count before this poll. -/
def choose (messages : OrdMap Offset Message) (g : GroupState)
    (max pollCount : Nat) : List Ranked :=
  let base := max / reservedDen
  let bonus := if (pollCount + 1) % reservedDen = 0 then 1 else 0
  let reserved := min (base + bonus) max
  let prioritySlots := max - reserved
  let sel := selectLoop g max prioritySlots (messages.splitOff g.ackWatermark).entries {}
  let chosen := fillEarliest max sel.earliest (sel.top.foldl pushNew (∅, []))
  chosen.2.insertionSort deliveryLe

def deliveredItem (leaseId : LeaseId) (offset : Offset) (message : Message) : Delivered :=
  ⟨leaseId, offset, message.priority, message.contentType, message.payload, message.tsMs⟩

/-- Lease the chosen offsets in order, numbering them from `nextLease`. -/
def leaseChosen (messages : OrdMap Offset Message) (deadlineMs : Nat) :
    List Ranked → GroupState → LeaseId → GroupState × LeaseId × List Delivered
  | [], g, nextLease => (g, nextLease, [])
  | (_, offset) :: rest, g, nextLease =>
      let item := (messages.get? offset).map (deliveredItem nextLease offset)
      let r := leaseChosen messages deadlineMs rest
        (g.takeLease nextLease offset deadlineMs) (satAdd nextLease 1)
      (r.1, r.2.1, item.toList ++ r.2.2)

/-- The part of `poll` that works on the polling group. -/
def pollGroup (messages : OrdMap Offset Message) (g0 : GroupState)
    (max visibilityTimeoutMs tsMs : Nat) (nextLease : LeaseId) :
    GroupState × LeaseId × List Delivered :=
  let g := g0.beginPoll tsMs
  if max = 0 then (g, nextLease, [])
  else
    leaseChosen messages (satAdd tsMs visibilityTimeoutMs)
      (choose messages g max g0.pollCount) g nextLease

/-- `poll` on a topic that exists. The source inlines `group_entry`. -/
def pollTopic (t : TopicState) (group : GroupId) (max visibilityTimeoutMs tsMs : Nat)
    (nextLease : LeaseId) : TopicState × LeaseId × List Delivered :=
  let visibilityTimeoutMs := min visibilityTimeoutMs maxVisibilityMs
  let t := sweepAndReclaim t tsMs
  match groupEntry t group (some tsMs) with
  | none => (t, nextLease, [])
  | some g0 =>
      let r := pollGroup t.messages g0 max visibilityTimeoutMs tsMs nextLease
      (putGroup t group r.1, r.2)

/-- `if let Some(g) = t.groups.get_mut(group) { f(g) }`. -/
def updateGroup (t : TopicState) (group : GroupId) (f : GroupState → GroupState) :
    TopicState :=
  match t.groups.get? group with
  | none => t
  | some g => putGroup t group (f g)

def ackTopic (t : TopicState) (group : GroupId) (leaseId : LeaseId) : TopicState :=
  updateGroup t group (·.ackLease leaseId)

def nackTopic (t : TopicState) (group : GroupId) (leaseId : LeaseId) : TopicState :=
  updateGroup t group (·.removeLease leaseId)

/-- `commit` on a topic that exists. A watermark past the end of the
topic would hide every message produced afterwards from the group, so
the offset is clamped. -/
def commitTopic (t : TopicState) (group : GroupId) (offset : Offset)
    (nowMs : Option Nat) : TopicState :=
  let t := nowMs.elim t (sweepAndReclaim t)
  let offset := min offset t.nextOffset
  match groupEntry t group nowMs with
  | none => t
  | some g => putGroup t group ((g.advanceWatermark offset).touch nowMs)

end HermesMq
