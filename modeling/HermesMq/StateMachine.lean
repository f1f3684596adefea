import HermesMq.Codec
import HermesMq.QueueHealth
import HermesMq.RaftTypes
import Mathlib.Tactic.DeriveCountable

/-!
# The replicated state machine and its snapshots

Raft hands every node the same log. `StateMachineData.apply` folds its
entries into the last applied id, the last membership and the queue.
A snapshot is the serialised state behind a two-byte format mark;
decoding strips the mark (or falls back to the layout of older
releases), lowers watermarks an old release let too high, and refuses
what `Queue.validate` refuses.

The main result is that a snapshot in the middle of a log is invisible
(`snapshot_invisible`).
-/

namespace HermesMq

/-! ## Applying the log -/

structure StateMachineData where
  lastApplied : Option LogId := none
  lastMembership : StoredMembership := {}
  queue : Queue := {}
deriving DecidableEq

namespace StateMachineData

/-- The body of the loop of `apply`. -/
def applyEntry (d : StateMachineData) (entry : Entry) : StateMachineData × AppResponse :=
  let d := { d with lastApplied := some entry.logId }
  match entry.payload with
  | .blank => (d, .noOp)
  | .membership m => ({ d with lastMembership := ⟨some entry.logId, m⟩ }, .noOp)
  | .normal req =>
      let (queue, response) := d.queue.apply req
      ({ d with queue := queue }, response)

/-- `apply`: the state after the entries, and their responses in order. -/
def apply (d : StateMachineData) : List Entry → StateMachineData × List AppResponse
  | [] => (d, [])
  | entry :: entries =>
      let (d, response) := d.applyEntry entry
      let (d, responses) := d.apply entries
      (d, response :: responses)

theorem apply_append (d : StateMachineData) (pre post : List Entry) :
    d.apply (pre ++ post) =
      (((d.apply pre).1.apply post).1, (d.apply pre).2 ++ ((d.apply pre).1.apply post).2) := by
  induction pre generalizing d with
  | nil => rfl
  | cons entry pre ih => simp only [List.cons_append, apply, ih]

end StateMachineData

/-- The requests a log carries to the queue. -/
def EntryPayload.request? : EntryPayload → Option AppRequest
  | .normal req => some req
  | .blank | .membership _ => none

/-- The queue only sees the requests of the log. -/
theorem StateMachineData.apply_queue (d : StateMachineData) (entries : List Entry) :
    (d.apply entries).1.queue = d.queue.run (entries.filterMap (·.payload.request?)) := by
  induction entries generalizing d with
  | nil => rfl
  | cons entry entries ih =>
      have step : (d.applyEntry entry).1.queue =
          d.queue.run (entry.payload.request?.toList) := by
        obtain ⟨id, payload⟩ := entry
        cases payload <;> rfl
      have hsplit : (entry :: entries).filterMap (·.payload.request?) =
          entry.payload.request?.toList ++ entries.filterMap (·.payload.request?) := by
        cases h : entry.payload.request? <;> simp [h]
      rw [hsplit, Queue.run_append, ← step, ← ih]
      rfl

/-! ## Layouts of older releases -/

structure GroupStateV0 where
  ackWatermark : Offset
  ackedAbove : Finset Offset
  inFlight : OrdMap LeaseId Lease
  leasedOffsets : OrdMap Offset Nat
  pollCount : Nat

structure TopicStateV0 where
  nextOffset : Offset
  messages : OrdMap Offset Message
  dedup : OrdMap DedupKey Offset
  dedupOrder : List DedupKey
  groups : OrdMap GroupId GroupStateV0
  rateMilliPerSec : Nat
  burst : Nat
  retainMaxMessages : Nat
  retainMaxAgeMs : Nat

structure QueueV0 where
  topics : OrdMap TopicId TopicStateV0
  nextLeaseId : LeaseId

/-- An old group has no activity stamp: it counts as never active. -/
def GroupStateV0.upgrade (g : GroupStateV0) : GroupState where
  ackWatermark := g.ackWatermark
  ackedAbove := g.ackedAbove
  inFlight := g.inFlight
  leasedOffsets := g.leasedOffsets
  pollCount := g.pollCount
  lastActiveMs := 0

def TopicStateV0.upgrade (t : TopicStateV0) : TopicState where
  nextOffset := t.nextOffset
  messages := t.messages
  dedup := t.dedup
  dedupOrder := t.dedupOrder
  groups := t.groups.mapVals fun _ g => g.upgrade
  rateMilliPerSec := t.rateMilliPerSec
  burst := t.burst
  retainMaxMessages := t.retainMaxMessages
  retainMaxAgeMs := t.retainMaxAgeMs

def QueueV0.upgrade (q : QueueV0) : Queue where
  topics := q.topics.mapVals fun _ t => t.upgrade
  nextLeaseId := q.nextLeaseId

structure StateMachineDataV0 where
  lastApplied : Option LogId
  lastMembership : StoredMembership
  queue : QueueV0

def StateMachineDataV0.upgrade (d : StateMachineDataV0) : StateMachineData where
  lastApplied := d.lastApplied
  lastMembership := d.lastMembership
  queue := d.queue.upgrade

/-! ## Snapshot bytes -/

/-- An old snapshot starts with an option tag, 0 or 1, so 0xFF marks the
versioned layout. -/
def snapshotFormat : Bytes := [0xFF, 1]

section Snapshot

-- `postcard` at the current layout, and its reader at the old one.
variable (postcard : Codec StateMachineData) (decV0 : Bytes → Except String StateMachineDataV0)

def encodeState (data : StateMachineData) : Bytes :=
  snapshotFormat ++ postcard.enc data

/-- The state in the bytes, before any check. -/
def parseState (bytes : Bytes) : Except String StateMachineData :=
  match snapshotFormat.isPrefixOf? bytes with
  | some rest => postcard.dec rest
  | none => (decV0 bytes).map StateMachineDataV0.upgrade

def decodeState (bytes : Bytes) : Except String StateMachineData := do
  let data ← parseState postcard decV0 bytes
  let data := { data with queue := data.queue.normalize }
  match data.queue.validate with
  | .error reason => .error s!"snapshot state is not self-consistent: {reason}"
  | .ok () => .ok data

theorem parseState_encodeState (data : StateMachineData) :
    parseState postcard decV0 (encodeState postcard data) = .ok data := by
  have hstrip : snapshotFormat.isPrefixOf? (encodeState postcard data) =
      some (postcard.enc data) := rfl
  simp [parseState, hstrip]

/-- What the decoder accepts passes `validate`, whoever wrote the bytes. -/
theorem decodeState_valid {bytes : Bytes} {data : StateMachineData}
    (h : decodeState postcard decV0 bytes = .ok data) : data.queue.validate = .ok () := by
  unfold decodeState at h
  cases hraw : parseState postcard decV0 bytes with
  | error reason => simp [hraw, bind, Except.bind] at h
  | ok raw =>
      simp only [hraw, bind, Except.bind] at h
      cases hv : raw.queue.normalize.validate with
      | error reason => simp [hv] at h
      | ok u =>
          rw [hv] at h
          cases h
          exact hv

/-- A watermark that `validate` accepts is not lowered. -/
theorem Queue.normalize_of_valid {q : Queue} (hq : q.TopicsAt TopicValid) : q.normalize = q := by
  have hgroups : ∀ τ t, q.topics.get? τ = some t →
      (t.groups.mapVals fun _ g =>
        if g.ackWatermark > t.nextOffset then { g with ackWatermark := t.nextOffset } else g) =
      t.groups := by
    intro τ t ht
    refine OrdMap.mapVals_eq_self fun γ g hg => if_neg ?_
    exact not_lt.mpr ((hq τ t ht).groups hg).watermark_le
  have htopics : q.normalize.topics = q.topics := by
    unfold Queue.normalize
    dsimp only
    refine OrdMap.mapVals_eq_self fun τ t ht => ?_
    rw [hgroups τ t ht]
  exact congrArg (Queue.mk · q.nextLeaseId) htopics

theorem decodeState_encodeState {data : StateMachineData}
    (hv : data.queue.validate = .ok ()) :
    decodeState postcard decV0 (encodeState postcard data) = .ok data := by
  have hnorm : data.queue.normalize = data.queue :=
    Queue.normalize_of_valid (validate_ok_iff.mp hv).2
  simp only [decodeState, parseState_encodeState, hnorm, hv, bind, Except.bind]

/-- Apply `pre`, take a snapshot, restore it, and apply `post`. -/
def applyCut (pre post : List Entry) : Except String (StateMachineData × List AppResponse) := do
  let (data, before) := StateMachineData.apply {} pre
  let data ← decodeState postcard decV0 (encodeState postcard data)
  let (data, after) := data.apply post
  return (data, before ++ after)

end Snapshot

/-- Every state built from a log is one `validate` accepts. -/
theorem StateMachineData.apply_valid {entries : List Entry}
    (hb : (StateMachineData.apply {} entries).1.queue.Bounded) :
    (StateMachineData.apply {} entries).1.queue.validate = .ok () := by
  refine validate_of_healthy ?_ hb
  rw [apply_queue]
  exact run_healthy (Queue.topicsAt_empty _) _

/-- A snapshot between any two entries of a log changes neither the state
nor a response, and restoring it alters nothing. -/
theorem snapshot_invisible (postcard : Codec StateMachineData)
    (decV0 : Bytes → Except String StateMachineDataV0) (pre post : List Entry)
    (hb : (StateMachineData.apply {} pre).1.queue.Bounded) :
    applyCut postcard decV0 pre post = .ok (StateMachineData.apply {} (pre ++ post)) ∧
      (StateMachineData.apply {} pre).1.queue.normalize =
        (StateMachineData.apply {} pre).1.queue := by
  have hv := StateMachineData.apply_valid hb
  refine ⟨?_, Queue.normalize_of_valid (validate_ok_iff.mp hv).2⟩
  simp only [applyCut, decodeState_encodeState postcard decV0 hv, bind, Except.bind,
    StateMachineData.apply_append]
  rfl

/-! Some codec of the state exists, since it is built from countable
types. -/

deriving instance Countable for Message, Lease, GroupState, TopicState, Queue, StateMachineData

/-- A leader's first entries: its blank entry, a membership, a message
and a poll that leases it. -/
def firstEntries : List Entry :=
  let id (index : Nat) : LogId := ⟨⟨1, 1⟩, index⟩
  [⟨id 1, .blank⟩, ⟨id 2, .membership ⟨[{1}], .ofList [(1, "a:1")]⟩⟩,
    ⟨id 3, .normal (.produce "t" .default .raw [1] "" 0 5)⟩, ⟨id 4, .normal (.poll "t" "g" 1 100 5)⟩]

theorem snapshot_invisible_between_poll_and_ack :
    (StateMachineData.apply {} firstEntries).1.queue.validate = .ok () ∧
      ∃ postcard : Codec StateMachineData, ∀ decV0,
        applyCut postcard decV0 firstEntries [⟨⟨⟨1, 1⟩, 5⟩, .normal (.ack "t" "g" 0)⟩] =
          .ok (StateMachineData.apply {}
            (firstEntries ++ [⟨⟨⟨1, 1⟩, 5⟩, .normal (.ack "t" "g" 0)⟩])) := by
  have hv : (StateMachineData.apply {} firstEntries).1.queue.validate = .ok () := by decide
  exact ⟨hv, .ofCountable _, fun decV0 =>
    (snapshot_invisible _ decV0 firstEntries _ (validate_ok_iff.mp hv).1).1⟩

end HermesMq
