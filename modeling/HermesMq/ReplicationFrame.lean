import HermesMq.ClientPort
import HermesMq.PeerProtocol
import HermesMq.TopicLimit
import Mathlib.Data.Finset.Sort

/-!
# Replication messages and the peer frame

The encoding of the requests nodes send each other, and how long the one
that replicates entries of the client port can get. The consensus layer
sends at most `maxPayloadEntries` entries in one.

The limits on names, payloads and batches keep an entry under 1.8 MB, so 32
of them fit the frame of 64 MiB with room to spare. An entry that deletes a
topic is as long as its client frame, and 32 of those do not fit: the
message fits if and only if its entries are not all deletes, or their names
leave room for the rest (`append_entries_fit`).
-/

namespace HermesMq

open Wire

/-- `max_payload_entries`. -/
def maxPayloadEntries : Nat := 32

/-! ## Encoding

An enumeration is the index of the variant and then its fields; a record is
its fields in order. -/

def encodeText (s : String) : Bytes := delimited (utf8Bytes s)

def encodeByte (b : Fin 256) : Bytes := [.ofNat b.val]

def encodeBool (b : Bool) : Bytes := [if b then 1 else 0]

def ContentType.encode : ContentType → Bytes
  | .raw => varint 0
  | .text => varint 1
  | .json => varint 2
  | .msgPack => varint 3

def ProduceItem.encode (item : ProduceItem) : Bytes :=
  encodeText item.topic ++ encodeByte item.priority ++ item.contentType.encode ++
    delimited item.payload ++ encodeText item.producerId ++ varint item.seq ++ varint item.tsMs

def AppRequest.encode : AppRequest → Bytes
  | .produce topic priority contentType payload producerId seq tsMs =>
      varint 0 ++
        ProduceItem.encode ⟨topic, priority, contentType, payload, producerId, seq, tsMs⟩
  | .poll topic group max visibilityTimeoutMs tsMs =>
      varint 1 ++ encodeText topic ++ encodeText group ++ varint max ++
        varint visibilityTimeoutMs ++ varint tsMs
  | .ack topic group leaseId => varint 2 ++ encodeText topic ++ encodeText group ++ varint leaseId
  | .nack topic group leaseId => varint 3 ++ encodeText topic ++ encodeText group ++ varint leaseId
  | .commitOffset topic group offset =>
      varint 4 ++ encodeText topic ++ encodeText group ++ varint offset
  | .createTopic topic => varint 5 ++ encodeText topic
  | .deleteTopic topic => varint 6 ++ encodeText topic
  | .setRateLimit topic rateMilliPerSec burst =>
      varint 7 ++ encodeText topic ++ varint rateMilliPerSec ++ varint burst
  | .setRetention topic maxMessages maxAgeMs =>
      varint 8 ++ encodeText topic ++ varint maxMessages ++ varint maxAgeMs
  | .ackMany topic group leaseIds =>
      varint 9 ++ encodeText topic ++ encodeText group ++ seq varint leaseIds
  | .produceMany items => varint 10 ++ seq ProduceItem.encode items
  | .nackMany topic group leaseIds =>
      varint 11 ++ encodeText topic ++ encodeText group ++ seq varint leaseIds
  | .pollAuto topic group max visibilityTimeoutMs tsMs =>
      varint 12 ++ encodeText topic ++ encodeText group ++ varint max ++
        varint visibilityTimeoutMs ++ varint tsMs
  | .commitOffsetAt topic group offset tsMs =>
      varint 13 ++ encodeText topic ++ encodeText group ++ varint offset ++ varint tsMs

def CommittedLeaderId.encode (id : CommittedLeaderId) : Bytes := varint id.term ++ varint id.nodeId

def LogId.encode (id : LogId) : Bytes := id.leaderId.encode ++ varint id.index

def Membership.encode (m : Membership) : Bytes :=
  seq (fun config => seq varint (Finset.sort config)) m.configs ++
    seq (fun (node : NodeId × String) => varint node.1 ++ encodeText node.2) m.nodes.entries

def EntryPayload.encode : EntryPayload → Bytes
  | .blank => varint 0
  | .normal req => varint 1 ++ req.encode
  | .membership m => varint 2 ++ m.encode

def Entry.encode (e : Entry) : Bytes := e.logId.encode ++ e.payload.encode

def Vote.encode (v : Vote) : Bytes := v.leaderId.encode ++ encodeBool v.committed

def AppendEntriesRequest.encode (r : AppendEntriesRequest) : Bytes :=
  r.vote.encode ++ option LogId.encode r.prevLogId ++ seq Entry.encode r.entries ++
    option LogId.encode r.leaderCommit

def VoteRequest.encode (r : VoteRequest) : Bytes :=
  r.vote.encode ++ option LogId.encode r.lastLogId

def SnapshotMeta.encode (m : SnapshotMeta) : Bytes :=
  option LogId.encode m.lastLogId ++ option LogId.encode m.lastMembership.logId ++
    m.lastMembership.membership.encode ++ encodeText m.snapshotId

def InstallSnapshotRequest.encode (r : InstallSnapshotRequest) : Bytes :=
  r.vote.encode ++ r.snapshotMeta.encode ++ varint r.offset ++ delimited r.data ++
    encodeBool r.done

def PeerRequest.encode : PeerRequest → Bytes
  | .appendEntries r => varint 0 ++ r.encode
  | .vote r => varint 1 ++ r.encode
  | .installSnapshot r => varint 2 ++ r.encode
  | .auth token => varint 3 ++ encodeText token

/-! ## The length of an entry -/

theorem length_encodeText (s : String) :
    (encodeText s).length = (varint s.utf8ByteSize).length + s.utf8ByteSize :=
  length_delimited (utf8Bytes s)

theorem length_encodeText_le {s : String} (h : s.utf8ByteSize ≤ maxNameBytes) :
    (encodeText s).length ≤ 258 := by
  have hlt : maxNameBytes < 128 ^ (1 + 1) := by decide
  have hname : maxNameBytes = 256 := rfl
  have hlen := length_varint_le (h.trans_lt hlt)
  rw [length_encodeText]
  omega

theorem ProduceItem.Bounded.length_encode {item : ProduceItem} (h : item.Bounded) :
    item.encode.length ≤ item.payload.length + 541 := by
  have hpayload : maxPayloadBytes < 128 ^ (2 + 1) := by decide
  have htopic := length_encodeText_le h.topic
  have hid := length_encodeText_le h.producerId
  have hct : item.contentType.encode.length = 1 := by
    cases item.contentType with
    | raw | text | json | msgPack => exact length_varint_of_lt (by decide)
  have hlen := length_varint_le (h.payload.trans_lt hpayload)
  have hseq := length_varint_u64 h.seq
  have hts := length_varint_u64 h.tsMs
  simp only [ProduceItem.encode, encodeByte, List.length_append, List.length_singleton,
    length_delimited, hct]
  omega

theorem BatchBounded.length_encode {items : List ProduceItem} (h : BatchBounded items) :
    (seq ProduceItem.encode items).length ≤ 1711361 := by
  have hsum : (items.map fun item => item.encode.length).sum ≤
      (items.map (·.payload.length)).sum + items.length * 541 := by
    have hle : (items.map fun item => item.encode.length).sum ≤
        (items.map fun item => item.payload.length + 541).sum :=
      List.sum_le_sum fun item hitem => (h.each item hitem).length_encode
    rw [List.sum_map_add, List.map_const', List.sum_replicate] at hle
    exact hle
  have hcount : items.length ≤ 256 := h.count
  have hpayloads : (items.map (·.payload.length)).sum < 1572864 := h.payloads
  have hlen : (varint items.length).length ≤ 1 + 1 := length_varint_le (by omega)
  rw [length_seq]
  omega

theorem checkNames_length {topic group : String} (h : checkNames topic group = .ok ()) :
    (encodeText topic).length ≤ 258 ∧ (encodeText group).length ≤ 258 := by
  obtain ⟨htopic, hgroup⟩ := checkNames_ok_iff.mp h
  exact ⟨length_encodeText_le htopic, length_encodeText_le hgroup⟩

theorem length_leases_le {leaseIds : List LeaseId} (hcount : leaseIds.length ≤ ackBatchMax)
    (hids : ∀ id ∈ leaseIds, id ≤ u64Max) : (seq varint leaseIds).length ≤ 10242 := by
  have hmax : leaseIds.length ≤ 1024 := hcount
  have hlen : (varint leaseIds.length).length ≤ 1 + 1 := length_varint_le (by omega)
  have hseq : (seq varint leaseIds).length ≤ _ :=
    length_seq_le fun id hid => length_varint_u64 (hids id hid)
  omega

/-- No request of the client port but a delete is longer than a full batch
of produces. -/
theorem AppRequest.Bounded.length_encode {app : AppRequest} (h : app.Bounded)
    (hdel : ∀ topic, app ≠ .deleteTopic topic) : app.encode.length ≤ 1711362 := by
  cases app with
  | deleteTopic topic => exact absurd rfl (hdel topic)
  | poll topic group max visibility tsMs | pollAuto topic group max visibility tsMs =>
      obtain ⟨hnames, hmax, hvisibility, hts⟩ := h
      obtain ⟨htopic, hgroup⟩ := checkNames_length hnames
      have hmax := length_varint_u64 (hmax.trans (by decide))
      have hvisibility := length_varint_u64 (hvisibility.trans (by decide))
      have hts := length_varint_u64 hts
      simp (disch := decide) only [AppRequest.encode, List.length_append, length_varint_of_lt]
      omega
  | commitOffsetAt topic group offset tsMs =>
      obtain ⟨hnames, hoffset, hts⟩ := h
      obtain ⟨htopic, hgroup⟩ := checkNames_length hnames
      have hoffset := length_varint_u64 hoffset
      have hts := length_varint_u64 hts
      simp (disch := decide) only [AppRequest.encode, List.length_append, length_varint_of_lt]
      omega
  | createTopic topic =>
      have htopic := length_encodeText_le h
      simp (disch := decide) only [AppRequest.encode, List.length_append, length_varint_of_lt]
      omega
  | setRateLimit topic rateMilliPerSec burst =>
      obtain ⟨htopic, hrate, hburst⟩ := h
      have htopic := length_encodeText_le htopic
      have hrate := length_varint_u64 hrate
      have hburst := length_varint_u64 (hburst.le.trans (by decide))
      simp (disch := decide) only [AppRequest.encode, List.length_append, length_varint_of_lt]
      omega
  | setRetention topic maxMessages maxAgeMs =>
      obtain ⟨htopic, hmessages, hage⟩ := h
      have htopic := length_encodeText_le htopic
      have hmessages := length_varint_u64 hmessages
      have hage := length_varint_u64 hage
      simp (disch := decide) only [AppRequest.encode, List.length_append, length_varint_of_lt]
      omega
  | ackMany topic group leaseIds | nackMany topic group leaseIds =>
      obtain ⟨hnames, hcount, hids⟩ := h
      obtain ⟨htopic, hgroup⟩ := checkNames_length hnames
      have hleases := length_leases_le hcount hids
      simp (disch := decide) only [AppRequest.encode, List.length_append, length_varint_of_lt]
      omega
  | produceMany items =>
      have hitems := BatchBounded.length_encode h
      simp (disch := decide) only [AppRequest.encode, List.length_append, length_varint_of_lt]
      omega
  | produce | ack | nack | commitOffset => exact False.elim h

/-! ## The length of a message -/

def LogId.InRange (id : LogId) : Prop :=
  id.leaderId.term ≤ u64Max ∧ id.leaderId.nodeId ≤ u64Max ∧ id.index ≤ u64Max

/-- A message of the consensus layer that carries entries of the client
port. Terms, node ids and indexes are `u64`. -/
structure AppendEntriesRequest.Replicates (rateMilli : UInt64 → UInt64)
    (r : AppendEntriesRequest) : Prop where
  count : r.entries.length ≤ maxPayloadEntries
  entries : ∀ e ∈ r.entries, ∃ app, e.payload = .normal app ∧ Admitted rateMilli app
  entryIds : ∀ e ∈ r.entries, e.logId.InRange
  term : r.vote.leaderId.term ≤ u64Max
  nodeId : r.vote.leaderId.nodeId ≤ u64Max
  prevLogId : ∀ id ∈ r.prevLogId, id.InRange
  leaderCommit : ∀ id ∈ r.leaderCommit, id.InRange

/-- The topic an entry deletes. -/
def Entry.deletes (e : Entry) : Option TopicId :=
  match e.payload with
  | .normal (.deleteTopic topic) => some topic
  | _ => none

namespace AppendEntriesRequest

/-- The names of the topics the entries delete. -/
def deletedNames (r : AppendEntriesRequest) : List TopicId := r.entries.filterMap Entry.deletes

/-- The variant, the number of entries, and the fields next to them. -/
def header (r : AppendEntriesRequest) : Nat :=
  2 + r.vote.encode.length + (option LogId.encode r.prevLogId).length +
    (option LogId.encode r.leaderCommit).length

/-- What a message has next to the names if its entries delete topics with
long names: the header, and for each entry its id, the two variants and the
three bytes of the length. -/
def overhead (r : AppendEntriesRequest) : Nat :=
  r.header + (r.entries.map fun e => e.logId.encode.length + 5).sum

/-- The entries are not all deletes, or the names leave room for the rest. -/
def NamesFit (r : AppendEntriesRequest) : Prop :=
  r.deletedNames.length = maxPayloadEntries →
    r.overhead + (r.deletedNames.map (·.utf8ByteSize)).sum ≤ maxPeerFrame

end AppendEntriesRequest

theorem LogId.InRange.length_encode {id : LogId} (h : id.InRange) : id.encode.length ≤ 30 := by
  obtain ⟨hterm, hnode, hindex⟩ := h
  have hterm := length_varint_u64 hterm
  have hnode := length_varint_u64 hnode
  have hindex := length_varint_u64 hindex
  simp only [LogId.encode, CommittedLeaderId.encode, List.length_append]
  omega

theorem length_option_logId {id : Option LogId} (h : ∀ i ∈ id, i.InRange) :
    (option LogId.encode id).length ≤ 31 := by
  cases id with
  | none => exact Nat.le_of_ble_eq_true rfl
  | some i => exact Nat.succ_le_succ (h i rfl).length_encode

theorem payload_of_deletes {e : Entry} {topic : TopicId} (h : e.deletes = some topic) :
    e.payload = .normal (.deleteTopic topic) := by
  rw [Entry.deletes] at h
  split at h
  · rw [← Option.some.inj h]
    assumption
  · cases h

/-- An entry of the client port that is not a delete. -/
theorem length_entry_other {e : Entry} {app : AppRequest} (hid : e.logId.InRange)
    (hpayload : e.payload = .normal app) (happ : app.Bounded) (h : e.deletes = none) :
    e.encode.length ≤ 1711393 := by
  have hlen := hid.length_encode
  have happ : app.encode.length ≤ 1711362 := by
    refine happ.length_encode ?_
    rintro topic rfl
    rw [Entry.deletes, hpayload] at h
    cases h
  rw [Entry.encode, List.length_append, hpayload, EntryPayload.encode, List.length_append,
    length_varint_of_lt (by decide)]
  omega

theorem length_entry_delete {e : Entry} {topic : TopicId} (h : e.deletes = some topic) :
    e.encode.length =
      e.logId.encode.length + 2 + (varint topic.utf8ByteSize).length + topic.utf8ByteSize := by
  rw [Entry.encode, payload_of_deletes h, EntryPayload.encode, AppRequest.encode]
  simp (disch := decide) only [List.length_append, length_varint_of_lt, length_encodeText]
  omega

/-- The bytes of the name an entry deletes. -/
def Entry.nameBytes (e : Entry) : Nat :=
  match e.deletes with
  | some topic => topic.utf8ByteSize
  | none => 0

/-- What an entry takes that deletes a topic with a long name. -/
def Entry.weight (e : Entry) : Nat := e.logId.encode.length + 5 + e.nameBytes

theorem sum_deleted (l : List Entry) :
    ((l.filterMap Entry.deletes).map (·.utf8ByteSize)).sum = (l.map Entry.nameBytes).sum := by
  induction l with
  | nil => rfl
  | cons e rest ih =>
      rw [List.map_cons, List.sum_cons, ← ih, Entry.nameBytes]
      cases hdel : e.deletes with
      | none => rw [List.filterMap_cons_none hdel, Nat.zero_add]
      | some topic => rw [List.filterMap_cons_some hdel, List.map_cons, List.sum_cons]

namespace AppendEntriesRequest

variable {r : AppendEntriesRequest} {rateMilli : UInt64 → UInt64}

theorem overhead_add_names (r : AppendEntriesRequest) :
    r.overhead + (r.deletedNames.map (·.utf8ByteSize)).sum =
      r.header + (r.entries.map Entry.weight).sum := by
  rw [overhead, deletedNames, sum_deleted, Nat.add_assoc, ← List.sum_map_add]
  rfl

namespace Replicates

variable (h : r.Replicates rateMilli) {e : Entry} (he : e ∈ r.entries)
include h

theorem length_encode : (PeerRequest.appendEntries r).encode.length =
    r.header + (r.entries.map fun e => e.encode.length).sum := by
  have hcount : r.entries.length < 128 := h.count.trans_lt (by decide)
  simp (disch := first | decide | exact hcount) only [PeerRequest.encode,
    AppendEntriesRequest.encode, List.length_append, length_varint_of_lt, length_seq, header]
  omega

theorem header_le : r.header ≤ 85 := by
  have hterm := length_varint_u64 h.term
  have hnode := length_varint_u64 h.nodeId
  have hprev := length_option_logId h.prevLogId
  have hcommit := length_option_logId h.leaderCommit
  simp only [header, Vote.encode, CommittedLeaderId.encode, encodeBool, List.length_append,
    List.length_singleton]
  omega

include he

theorem nameBytes_le : e.nameBytes + 8 ≤ maxClientFrame := by
  obtain ⟨app, hpayload, happ⟩ := h.entries e he
  rw [Entry.nameBytes]
  cases hdel : e.deletes with
  | none => decide
  | some topic =>
      rw [payload_of_deletes hdel] at hpayload
      cases hpayload
      exact happ.bounded

theorem weight_le : e.weight ≤ 2097179 := by
  have hname : e.nameBytes + 8 ≤ 2097152 := h.nameBytes_le he
  have hid := (h.entryIds e he).length_encode
  rw [Entry.weight]
  omega

theorem length_other (hdel : e.deletes = none) : e.encode.length ≤ 1711393 := by
  obtain ⟨app, hpayload, happ⟩ := h.entries e he
  exact length_entry_other (h.entryIds e he) hpayload happ.bounded hdel

/-- A delete takes its weight, or less if the name is short. -/
theorem length_delete (hdel : e.deletes.isSome) : e.encode.length ≤ e.weight ∧
    (128 ^ 2 ≤ e.nameBytes → e.encode.length = e.weight) := by
  obtain ⟨topic, htopic⟩ := Option.isSome_iff_exists.mp hdel
  have hname : e.nameBytes = topic.utf8ByteSize := by rw [Entry.nameBytes, htopic]
  have hlt : e.nameBytes + 8 ≤ 2097152 := h.nameBytes_le he
  have hlen : (varint topic.utf8ByteSize).length ≤ 2 + 1 := length_varint_le (by omega)
  rw [length_entry_delete htopic, Entry.weight, hname]
  refine ⟨by omega, ?_⟩
  intro hlong
  have hgt := lt_length_varint hlong
  omega

theorem length_le : e.encode.length ≤ 2097179 := by
  cases hdel : e.deletes with
  | none => exact (h.length_other he hdel).trans (by decide)
  | some topic =>
      have hsome : e.deletes.isSome := by rw [hdel, Option.isSome_some]
      exact (h.length_delete he hsome).1.trans (h.weight_le he)

omit he

/-- With one entry that is not a delete, or one entry less, a message fits. -/
theorem fits_of_not_all (hnot : r.deletedNames.length ≠ maxPayloadEntries) :
    (PeerRequest.appendEntries r).encode.length ≤ maxPeerFrame := by
  have hheader := h.header_le
  have hcount : r.entries.length ≤ 32 := h.count
  have hmax : maxPeerFrame = 67108864 := rfl
  rw [h.length_encode]
  by_cases hall : ∀ e ∈ r.entries, e.deletes.isSome
  · have hsum := sum_map_le fun e he => h.length_le he
    have hlen : r.deletedNames.length = r.entries.length :=
      List.filterMap_length_eq_length.mpr hall
    have hne : r.entries.length ≠ 32 := hlen ▸ hnot
    omega
  · push Not at hall
    obtain ⟨e, he, hnone⟩ := hall
    have hother := h.length_other he (by simpa using hnone)
    have hsum := sum_map_add_le (fun e he => h.length_le he) he hother
    omega

/-- All entries are deletes: the message is as long as its names make it,
or a name is short and it fits in any case. -/
theorem fits_of_all (hall : r.deletedNames.length = maxPayloadEntries) :
    (PeerRequest.appendEntries r).encode.length ≤ maxPeerFrame ↔
      r.overhead + (r.deletedNames.map (·.utf8ByteSize)).sum ≤ maxPeerFrame := by
  have hheader := h.header_le
  have hcount : r.entries.length ≤ 32 := h.count
  have hmax : maxPeerFrame = 67108864 := rfl
  have hlen : r.deletedNames.length = r.entries.length :=
    (List.length_filterMap_le ..).antisymm (hall ▸ h.count)
  have hdel := List.filterMap_length_eq_length.mp hlen
  rw [h.length_encode, overhead_add_names]
  by_cases hlong : ∀ e ∈ r.entries, 128 ^ 2 ≤ e.nameBytes
  · have hsum : (r.entries.map fun e => e.encode.length) = r.entries.map Entry.weight :=
      List.map_congr_left fun e he => (h.length_delete he (hdel e he)).2 (hlong e he)
    rw [hsum]
  · push Not at hlong
    obtain ⟨e, he, hshort⟩ := hlong
    have hid := (h.entryIds e he).length_encode
    have hweight : e.weight ≤ 16418 := by
      rw [Entry.weight]
      omega
    have hle : (r.entries.map fun e => e.encode.length).sum ≤ (r.entries.map Entry.weight).sum :=
      List.sum_le_sum fun e he => (h.length_delete he (hdel e he)).1
    have hsum : (r.entries.map Entry.weight).sum + 2097179 ≤ _ :=
      sum_map_add_le (fun e he => h.weight_le he) he hweight
    omega

theorem length_lt : (PeerRequest.appendEntries r).encode.length < 2 ^ 32 := by
  have hheader := h.header_le
  have hcount : r.entries.length ≤ 32 := h.count
  have hsum := sum_map_le fun e he => h.length_le he
  rw [h.length_encode]
  omega

theorem fits_iff : (PeerRequest.appendEntries r).encode.length ≤ maxPeerFrame ↔ r.NamesFit := by
  by_cases hall : r.deletedNames.length = maxPayloadEntries
  · rw [h.fits_of_all hall]
    exact ⟨fun hle _ => hle, fun hfit => hfit hall⟩
  · exact iff_of_true (h.fits_of_not_all hall) fun heq => absurd heq hall

end Replicates

end AppendEntriesRequest

/-- As many deletes as a message holds, each of a topic with a name of `n`
bytes. -/
def longDeletes (n : Nat) : AppendEntriesRequest where
  vote := ⟨⟨1, 1⟩, true⟩
  prevLogId := some ⟨⟨1, 1⟩, 1⟩
  entries := (List.range maxPayloadEntries).map fun i =>
    ⟨⟨⟨1, 1⟩, i + 2⟩, .normal (.deleteTopic (longName n))⟩
  leaderCommit := some ⟨⟨1, 1⟩, 1⟩

theorem longDeletes_replicates {n : Nat} (h : n + 8 ≤ maxClientFrame) :
    (longDeletes n).Replicates id := by
  have hfits : (RequestKind.deleteTopic (longName n)).Fits := by
    rw [fits_deleteTopic_iff, longName_size]
    exact h
  have hone : (1 : Nat) ≤ u64Max := by decide
  have hid : ∀ id ∈ some (⟨⟨1, 1⟩, 1⟩ : LogId), id.InRange := by
    intro id hid
    cases hid
    exact ⟨hone, hone, hone⟩
  refine ⟨Nat.le_refl _, ?_, ?_, hone, hone, hid, hid⟩
  · intro e he
    obtain ⟨i, -, rfl⟩ := List.mem_map.mp he
    exact ⟨_, rfl, .handled (q := {}) hfits trivial (Nat.zero_le _) rfl⟩
  · intro e he
    obtain ⟨i, hi, rfl⟩ := List.mem_map.mp he
    have hi : i < 32 := List.mem_range.mp hi
    have hindex : i + 2 ≤ u64Max := (by omega : i + 2 ≤ 33).trans (by decide)
    exact ⟨hone, hone, hindex⟩

theorem longDeletes_namesFit {n : Nat} :
    (longDeletes n).NamesFit ↔ 269 + 32 * n ≤ maxPeerFrame := by
  have hid : ∀ i < 100, (LogId.encode ⟨⟨1, 1⟩, i⟩).length = 3 := by
    intro i hi
    have hlt : i < 128 := by omega
    simp (disch := first | decide | exact hlt) only [LogId.encode, CommittedLeaderId.encode,
      List.length_append, length_varint_of_lt]
  have hnames : (longDeletes n).deletedNames = List.replicate 32 (longName n) := rfl
  have hentries : ((longDeletes n).entries.map fun e => e.logId.encode.length + 5) =
      List.replicate 32 8 := by
    have heach : ∀ e ∈ (longDeletes n).entries, e.logId.encode.length + 5 = 8 := by
      intro e he
      obtain ⟨i, hi, rfl⟩ := List.mem_map.mp he
      have hi : i < 32 := List.mem_range.mp hi
      exact congrArg (· + 5) (hid (i + 2) (by omega))
    rw [List.map_congr_left heach, List.map_const']
    rfl
  have hoverhead : (longDeletes n).overhead = 269 := by
    have hvote : (longDeletes n).vote.encode.length = 3 := by
      simp (disch := decide) only [longDeletes, Vote.encode, CommittedLeaderId.encode, encodeBool,
        List.length_append, length_varint_of_lt, List.length_singleton]
    have hoption : (option LogId.encode (some ⟨⟨1, 1⟩, 1⟩)).length = 4 :=
      congrArg (· + 1) (hid 1 (by decide))
    have hheader : (longDeletes n).header = 13 := by
      rw [AppendEntriesRequest.header, hvote, longDeletes, hoption]
    rw [AppendEntriesRequest.overhead, hentries, hheader]
    rfl
  rw [AppendEntriesRequest.NamesFit, hoverhead, hnames, List.length_replicate, List.map_replicate,
    List.sum_replicate, longName_size]
  exact ⟨fun h => h rfl, fun h _ => h⟩

/-- A replication message with entries of the client port fits the peer
frame, and the follower takes it, if and only if its entries are not 32
deletes with names too long for it. -/
theorem append_entries_fit {rateMilli : UInt64 → UInt64} {r : AppendEntriesRequest}
    (h : r.Replicates rateMilli) :
    ((PeerRequest.appendEntries r).encode.length ≤ maxPeerFrame ↔ r.NamesFit) ∧
    (readFrame maxPeerFrame (writeFrame (PeerRequest.appendEntries r).encode) =
      .done (PeerRequest.appendEntries r).encode ↔ r.NamesFit) := by
  refine ⟨h.fits_iff, ?_⟩
  rw [readFrame_writeFrame h.length_lt, h.fits_iff]

/-- Deletes of names of 2097143 bytes still fit. -/
theorem append_entries_fit_below :
    (longDeletes 2097143).Replicates id ∧
      (PeerRequest.appendEntries (longDeletes 2097143)).encode.length ≤ maxPeerFrame := by
  have h : (longDeletes 2097143).Replicates id := longDeletes_replicates (by decide)
  exact ⟨h, (append_entries_fit h).1.mpr (longDeletes_namesFit.mpr (by decide))⟩

/-- With names of one byte more, which their client frames still hold, the
follower does not take the message. -/
theorem longDeletes_too_long :
    (longDeletes 2097144).Replicates id ∧
      ¬(PeerRequest.appendEntries (longDeletes 2097144)).encode.length ≤ maxPeerFrame ∧
      readFrame maxPeerFrame (writeFrame (PeerRequest.appendEntries (longDeletes 2097144)).encode) ≠
        .done (PeerRequest.appendEntries (longDeletes 2097144)).encode := by
  have h : (longDeletes 2097144).Replicates id := longDeletes_replicates (by decide)
  have hlong : ¬(PeerRequest.appendEntries (longDeletes 2097144)).encode.length ≤ maxPeerFrame := by
    rw [h.fits_iff, longDeletes_namesFit]
    decide
  refine ⟨h, hlong, ?_⟩
  intro hdone
  exact hlong ((readFrame_writeFrame h.length_lt).mp hdone)

end HermesMq
