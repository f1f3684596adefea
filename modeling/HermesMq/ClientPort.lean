import HermesMq.AckBatch
import HermesMq.ClientWire

/-!
# What the client port writes to the log

The requests `handle_request`, `handle_poll`, `handle_subscribe` and the
two batchers pass to the consensus layer, and what a client can bring into
them. `Admitted` is the set of all of them.

Every arm bounds the names it passes on, except the one for `DeleteTopic`,
whose name is as long as its frame allows (`Admitted.sizes`).
-/

namespace HermesMq

open Wire

def defaultPollMax : Nat := 16

def maxPollMax : Nat := 1024

def defaultVisibilityMs : Nat := 30000

def ackBatchMax : Nat := 1024

/-- `visibility_timeout_ms` of a poll or a subscription. -/
def visibilityMs (requested : Nat) : Nat :=
  if requested = 0 then defaultVisibilityMs else min requested maxVisibilityMs

/-- The poll that is written for `topic` and `group`. -/
def pollRequest (topic group ackMode : String) (max visibility tsMs : Nat) : AppRequest :=
  if ackMode = "auto" then .pollAuto topic group max visibility tsMs
  else .poll topic group max visibility tsMs

namespace PollFrame

def pollMax (p : PollFrame) : Nat := if p.max = 0 then defaultPollMax else min p.max maxPollMax

/-- The request `handle_poll` writes; the rate limiter grants `grant`. -/
def request (p : PollFrame) (grant tsMs : Nat) : AppRequest :=
  pollRequest p.topic p.group p.ackMode grant (visibilityMs p.visibilityTimeoutMs) tsMs

theorem pollMax_le (p : PollFrame) : p.pollMax ≤ maxPollMax := by
  rw [pollMax]
  split
  · decide
  · exact Nat.min_le_right ..

end PollFrame

namespace SubscribeFrame

/-- `prefetch.clamp(1, MAX_POLL_MAX)`. -/
def prefetchMax (s : SubscribeFrame) : Nat := min (max s.prefetch 1) maxPollMax

/-- The request a round of `handle_subscribe` writes. -/
def request (s : SubscribeFrame) (grant tsMs : Nat) : AppRequest :=
  pollRequest s.topic s.group s.ackMode grant (visibilityMs s.visibilityTimeoutMs) tsMs

end SubscribeFrame

/-- The numbers of a request are in the ranges of their types. -/
def RequestKind.InRange : RequestKind → Prop
  | .produce p => p.seq ≤ u64Max
  | .ack _ _ leaseId | .nack _ _ leaseId => leaseId ≤ u64Max
  | .commit _ _ offset => offset ≤ u64Max
  | .setRateLimit _ _ burst => burst < 2 ^ 32
  | .setRetention _ maxMessages maxAgeMs => maxMessages ≤ u64Max ∧ maxAgeMs ≤ u64Max
  | _ => True

/-- The arms of `handle_request` that write a request of their own;
`rateMilli` is `(rate * 1000.0).round() as u64`. -/
def handleRequest (rateMilli : UInt64 → UInt64) (q : Queue) (nowMs : Nat) :
    RequestKind → Option (Except Response AppRequest)
  | .setRateLimit topic ratePerSec burst => some do
      checkNewTopic q topic
      return .setRateLimit topic (rateMilli ratePerSec).toNat burst
  | .setRetention topic maxMessages maxAgeMs => some do
      checkNewTopic q topic
      return .setRetention topic maxMessages maxAgeMs
  | .commit topic group offset => some do
      checkNames topic group
      return .commitOffsetAt topic group offset nowMs
  | .createTopic topic => some do
      checkNewTopic q topic
      return .createTopic topic
  | .deleteTopic topic => some (.ok (.deleteTopic topic))
  | _ => none

/-- An ack or nack of a client, or of a subscription: its names passed
`check_names`. -/
def AckJob.Checked (job : AckJob) : Prop :=
  checkNames job.topic job.group = .ok () ∧ job.leaseId ≤ u64Max

/-- A produce of a client that passed the checks of `handle_produce`. -/
def ProduceJob.Checked (job : ProduceJob) : Prop :=
  (RequestKind.produce job.p).Fits ∧ (RequestKind.produce job.p).InRange ∧
    ∃ q, checkFrame q job.p = .ok ()

/-- The requests the client port writes. Times are `u64`. -/
inductive Admitted (rateMilli : UInt64 → UInt64) : AppRequest → Prop
  | handled {q : Queue} {nowMs : Nat} {kind : RequestKind} {app : AppRequest} (hfits : kind.Fits)
      (hrange : kind.InRange) (hnow : nowMs ≤ u64Max)
      (h : handleRequest rateMilli q nowMs kind = some (.ok app)) : Admitted rateMilli app
  | polled {p : PollFrame} {grant tsMs : Nat} (hfits : (RequestKind.poll p).Fits)
      (hnames : checkNames p.topic p.group = .ok ()) (hgrant : grant ≤ p.pollMax)
      (hts : tsMs ≤ u64Max) : Admitted rateMilli (p.request grant tsMs)
  | subscribed {s : SubscribeFrame} {grant tsMs : Nat} (hfits : (RequestKind.subscribe s).Fits)
      (hnames : checkNames s.topic s.group = .ok ()) (hgrant : grant ≤ s.prefetchMax)
      (hts : tsMs ≤ u64Max) : Admitted rateMilli (s.request grant tsMs)
  | produced {waiting : List ProduceJob} {tsMs : Nat} (hjobs : ∀ job ∈ waiting, job.Checked)
      (hts : tsMs ≤ u64Max) :
      Admitted rateMilli (.produceMany ((takeBatch waiting).1.map (·.item tsMs)))
  | acked {jobs : List AckJob} {key : AckKey} {group : AckGroup} (hmax : jobs.length ≤ ackBatchMax)
      (hjobs : ∀ job ∈ jobs, job.Checked) (hgroup : (key, group) ∈ (groupAckJobs jobs).entries) :
      Admitted rateMilli (AckKey.many key group.1)

/-! ## What a client can bring into the log -/

structure ProduceItem.Bounded (item : ProduceItem) : Prop where
  topic : item.topic.utf8ByteSize ≤ maxNameBytes
  producerId : item.producerId.utf8ByteSize ≤ maxProducerIdBytes
  payload : item.payload.length ≤ maxPayloadBytes
  seq : item.seq ≤ u64Max
  tsMs : item.tsMs ≤ u64Max

/-- A batch may go over the limit on its payloads with its last one. -/
structure BatchBounded (items : List ProduceItem) : Prop where
  count : items.length ≤ produceBatchMaxItems
  each : ∀ item ∈ items, item.Bounded
  payloads : (items.map (·.payload.length)).sum < produceBatchMaxBytes + maxPayloadBytes

/-- The bounds on a request of the client port. -/
def AppRequest.Bounded : AppRequest → Prop
  | .poll topic group max visibilityTimeoutMs tsMs
  | .pollAuto topic group max visibilityTimeoutMs tsMs =>
      checkNames topic group = .ok () ∧ max ≤ maxPollMax ∧
        visibilityTimeoutMs ≤ maxVisibilityMs ∧ tsMs ≤ u64Max
  | .commitOffsetAt topic group offset tsMs =>
      checkNames topic group = .ok () ∧ offset ≤ u64Max ∧ tsMs ≤ u64Max
  | .createTopic topic => topic.utf8ByteSize ≤ maxNameBytes
  | .deleteTopic topic => topic.utf8ByteSize + 8 ≤ maxClientFrame
  | .setRateLimit topic rateMilliPerSec burst =>
      topic.utf8ByteSize ≤ maxNameBytes ∧ rateMilliPerSec ≤ u64Max ∧ burst < 2 ^ 32
  | .setRetention topic maxMessages maxAgeMs =>
      topic.utf8ByteSize ≤ maxNameBytes ∧ maxMessages ≤ u64Max ∧ maxAgeMs ≤ u64Max
  | .ackMany topic group leaseIds | .nackMany topic group leaseIds =>
      checkNames topic group = .ok () ∧ leaseIds.length ≤ ackBatchMax ∧
        ∀ id ∈ leaseIds, id ≤ u64Max
  | .produceMany items => BatchBounded items
  | _ => False

theorem visibilityMs_le (requested : Nat) : visibilityMs requested ≤ maxVisibilityMs := by
  rw [visibilityMs]
  split
  · decide
  · exact Nat.min_le_right ..

theorem pollRequest_bounded {topic group ackMode : String} {max visibility tsMs : Nat}
    (hnames : checkNames topic group = .ok ()) (hmax : max ≤ maxPollMax)
    (hvisibility : visibility ≤ maxVisibilityMs) (hts : tsMs ≤ u64Max) :
    (pollRequest topic group ackMode max visibility tsMs).Bounded := by
  rw [pollRequest]
  split
  · exact ⟨hnames, hmax, hvisibility, hts⟩
  · exact ⟨hnames, hmax, hvisibility, hts⟩

/-- A delete has eight bytes of its frame next to a long name. -/
theorem fits_deleteTopic_iff {topic : String} :
    (RequestKind.deleteTopic topic).Fits ↔ topic.utf8ByteSize + 8 ≤ maxClientFrame := by
  have hmax : maxClientFrame = 128 ^ (2 + 1) := by decide
  have hlen : (RequestKind.deleteTopic topic).encode.length =
      1 + (delimited (textField 1 topic)).length := length_messageField (by decide) _
  have houter := length_varint_add_le_iff (n := (textField 1 topic).length)
    (by decide : 128 ^ 2 + 2 + 1 ≤ 128 ^ (2 + 1))
  have hinner := length_varint_add_le_iff (n := topic.utf8ByteSize)
    (by decide : 128 ^ 2 + 2 + 5 ≤ 128 ^ (2 + 1))
  rw [RequestKind.Fits, hlen, length_delimited, hmax]
  by_cases hnil : utf8Bytes topic = []
  · have hfield : (textField 1 topic).length = 0 := by
      rw [textField, hnil]
      rfl
    have hname : topic.utf8ByteSize = 0 := congrArg List.length hnil
    omega
  · have hfield : (textField 1 topic).length = 1 + (delimited (utf8Bytes topic)).length :=
      length_bytesField (by decide) hnil
    have hbytes : (utf8Bytes topic).length = topic.utf8ByteSize := rfl
    rw [length_delimited, hbytes] at hfield
    omega

/-- The payloads of the jobs `collect_jobs` takes: each was taken while the
sum of those before it was under the limit. -/
theorem collectJobs_bounds {jobs waiting : List ProduceJob} {bytes : Nat}
    (hcount : jobs.length ≤ produceBatchMaxItems)
    (hbytes : (jobs.map (·.p.payload.length)).sum = bytes)
    (hlt : bytes < produceBatchMaxBytes + maxPayloadBytes)
    (hwaiting : ∀ job ∈ waiting, job.p.payload.length ≤ maxPayloadBytes) :
    (collectJobs jobs bytes waiting).1.length ≤ produceBatchMaxItems ∧
      ((collectJobs jobs bytes waiting).1.map (·.p.payload.length)).sum <
        produceBatchMaxBytes + maxPayloadBytes := by
  induction waiting generalizing jobs bytes with
  | nil => exact ⟨hcount, hbytes ▸ hlt⟩
  | cons job rest ih =>
      obtain ⟨hjob, hrest⟩ := List.forall_mem_cons.mp hwaiting
      rw [collectJobs]
      split_ifs with hroom
      · refine ih ?_ ?_ (by omega) hrest
        · rw [List.length_append]
          exact hroom.1
        · rw [List.map_append, List.sum_append, hbytes, List.map_singleton, List.sum_singleton]
      · exact ⟨hcount, hbytes ▸ hlt⟩

theorem ProduceJob.Checked.item_bounded {job : ProduceJob} (h : job.Checked) {tsMs : Nat}
    (hts : tsMs ≤ u64Max) : (job.item tsMs).Bounded := by
  obtain ⟨-, hseq, q, hq⟩ := h
  obtain ⟨hpayload, hid, hname, -⟩ := checkFrame_ok_iff.mp hq
  exact ⟨hname, hid, hpayload, hseq, hts⟩

theorem takeBatch_bounded {waiting : List ProduceJob} (hjobs : ∀ job ∈ waiting, job.Checked)
    {tsMs : Nat} (hts : tsMs ≤ u64Max) :
    BatchBounded ((takeBatch waiting).1.map (·.item tsMs)) := by
  have hpayload : ∀ job ∈ waiting, job.p.payload.length ≤ maxPayloadBytes := by
    intro job hjob
    obtain ⟨-, -, q, hq⟩ := hjobs job hjob
    exact (checkFrame_ok_iff.mp hq).1
  have hbounds : (takeBatch waiting).1.length ≤ produceBatchMaxItems ∧
      ((takeBatch waiting).1.map (·.p.payload.length)).sum <
        produceBatchMaxBytes + maxPayloadBytes := by
    cases waiting with
    | nil => decide
    | cons first rest =>
        obtain ⟨hfirst, hrest⟩ := List.forall_mem_cons.mp hpayload
        have hlt : first.p.payload.length < produceBatchMaxBytes + maxPayloadBytes :=
          hfirst.trans_lt (by decide)
        have hone : [first].length ≤ produceBatchMaxItems := (by decide : 1 ≤ produceBatchMaxItems)
        exact collectJobs_bounds hone List.sum_singleton hlt hrest
  refine ⟨?_, ?_, ?_⟩
  · rw [List.length_map]
    exact hbounds.1
  · intro item hitem
    obtain ⟨job, hjob, rfl⟩ := List.mem_map.mp hitem
    have hmem : job ∈ waiting :=
      takeBatch_append waiting ▸ List.mem_append_left _ hjob
    exact (hjobs job hmem).item_bounded hts
  · rw [List.map_map]
    exact hbounds.2

theorem ackGroup_bounded {jobs : List AckJob} {key : AckKey} {group : AckGroup}
    (hmax : jobs.length ≤ ackBatchMax) (hjobs : ∀ job ∈ jobs, job.Checked)
    (hgroup : (key, group) ∈ (groupAckJobs jobs).entries) :
    (AckKey.many key group.1).Bounded := by
  have hperm := groupAckJobs_leases jobs
  have hjob : ∀ id ∈ group.1, ∃ job ∈ jobs, job.key = key ∧ job.leaseId = id := by
    intro id hid
    have hmem : (key, id) ∈ jobs.map fun job => (job.key, job.leaseId) :=
      hperm.mem_iff.mp (List.mem_flatMap.mpr ⟨_, hgroup, List.mem_map_of_mem hid⟩)
    obtain ⟨job, hjob, heq⟩ := List.mem_map.mp hmem
    exact ⟨job, hjob, (Prod.mk.inj heq).1, (Prod.mk.inj heq).2⟩
  have hcount : group.1.length ≤ ackBatchMax := by
    have hle : (group.1.map fun id => (key, id)).length ≤
        ((groupAckJobs jobs).entries.flatMap fun e => e.2.1.map fun id => (e.1, id)).length := by
      rw [List.length_flatMap]
      exact List.le_sum_of_mem (List.mem_map.mpr ⟨_, hgroup, rfl⟩)
    rw [hperm.length_eq, List.length_map, List.length_map] at hle
    exact hle.trans hmax
  have hids : ∀ id ∈ group.1, id ≤ u64Max := by
    intro id hid
    obtain ⟨job, hmem, -, rfl⟩ := hjob id hid
    exact (hjobs job hmem).2
  obtain ⟨id, hid⟩ := List.exists_mem_of_ne_nil _ (groupAckJobs_ne_nil _ hgroup)
  obtain ⟨job, hmem, rfl, -⟩ := hjob id hid
  have hnames : checkNames job.topic job.group = .ok () := (hjobs job hmem).1
  rw [AckKey.many]
  split
  · exact ⟨hnames, hcount, hids⟩
  · exact ⟨hnames, hcount, hids⟩

theorem handleRequest_bounded {rateMilli : UInt64 → UInt64} {q : Queue} {nowMs : Nat}
    {kind : RequestKind} {app : AppRequest} (hfits : kind.Fits) (hrange : kind.InRange)
    (hnow : nowMs ≤ u64Max) (h : handleRequest rateMilli q nowMs kind = some (.ok app)) :
    app.Bounded := by
  -- what a check lets through, for the arms that write after one
  have hchecked : ∀ {check : Except Response Unit} {req : AppRequest},
      some (check >>= fun _ => pure req) = some (Except.ok app) → check = .ok () ∧ req = app := by
    intro check req heq
    cases check with
    | error resp => cases heq
    | ok _ =>
        cases heq
        exact ⟨rfl, rfl⟩
  cases kind with
  | setRateLimit topic ratePerSec burst =>
      obtain ⟨hcheck, rfl⟩ := hchecked h
      have hrate : (rateMilli ratePerSec).toNat ≤ u64Max :=
        Nat.le_pred_of_lt (rateMilli ratePerSec).toNat_lt
      exact ⟨(checkNewTopic_ok_iff.mp hcheck).1, hrate, hrange⟩
  | setRetention topic maxMessages maxAgeMs =>
      obtain ⟨hcheck, rfl⟩ := hchecked h
      exact ⟨(checkNewTopic_ok_iff.mp hcheck).1, hrange⟩
  | commit topic group offset =>
      obtain ⟨hcheck, rfl⟩ := hchecked h
      exact ⟨hcheck, hrange, hnow⟩
  | createTopic topic =>
      obtain ⟨hcheck, rfl⟩ := hchecked h
      exact (checkNewTopic_ok_iff.mp hcheck).1
  | deleteTopic topic =>
      cases h
      exact fits_deleteTopic_iff.mp hfits
  | produce | poll | ack | nack | stats | bootstrap | subscribe | auth => cases h

/-- Everything the client port writes is within bounds; the one for the
name of a delete is the size of its frame. -/
theorem Admitted.bounded {rateMilli : UInt64 → UInt64} {app : AppRequest}
    (h : Admitted rateMilli app) : app.Bounded := by
  cases h with
  | handled hfits hrange hnow h => exact handleRequest_bounded hfits hrange hnow h
  | @polled p grant tsMs hfits hnames hgrant hts =>
      exact pollRequest_bounded hnames (hgrant.trans p.pollMax_le) (visibilityMs_le _) hts
  | @subscribed s grant tsMs hfits hnames hgrant hts =>
      exact pollRequest_bounded hnames (hgrant.trans (Nat.min_le_right ..)) (visibilityMs_le _) hts
  | produced hjobs hts => exact takeBatch_bounded hjobs hts
  | acked hmax hjobs hgroup => exact ackGroup_bounded hmax hjobs hgroup

end HermesMq
