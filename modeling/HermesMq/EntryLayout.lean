import HermesMq.Layout
import HermesMq.ReplicationFrame

/-!
# Log entries and peer requests as bytes

The layouts `postcard` gives the requests of the log, the entries and the
messages of the peer port. Their writers are the encoders the length bounds
are about (`PeerRequest.layout_write`), and whatever the client port admits
to the log fits them (`AppRequest.Bounded.fits`).
-/

namespace HermesMq

open Wire

/-! ## Requests of the log -/

def Priority.layout : Layout Priority :=
  Layout.byte.record UInt8.toFin (fun p => .ofNat p.val)
    (fun p => by
      refine Fin.ext ?_
      change (UInt8.ofNat p.val).toNat = p.val
      rw [UInt8.toNat_ofNat', Nat.mod_eq_of_lt p.isLt])
    fun _ => UInt8.ofNat_toNat

def ContentType.layout : Layout ContentType :=
  .enum [.plain .raw, .plain .text, .plain .json, .plain .msgPack] (by decide)
    ⟨fun _ => rfl, fun _ => rfl, fun _ => rfl, fun _ => rfl, trivial⟩

def ProduceItem.layout : Layout ProduceItem :=
  (Layout.text.pair <| Priority.layout.pair <| ContentType.layout.pair <| Layout.bytes.pair <|
    Layout.text.pair <| Layout.u64.pair Layout.u64).record
    (fun (topic, priority, contentType, payload, producerId, seq, tsMs) =>
      ⟨topic, priority, contentType, payload, producerId, seq, tsMs⟩)
    (fun i => (i.topic, i.priority, i.contentType, i.payload, i.producerId, i.seq, i.tsMs))
    fun _ => rfl

namespace AppRequest

/-- The fields of a poll. -/
def pollFields : Layout (TopicId × GroupId × Nat × Nat × Nat) :=
  Layout.text.pair <| Layout.text.pair <| Layout.u32.pair <| Layout.u64.pair Layout.u64

/-- A topic, a group and a number. -/
def consumerFields : Layout (TopicId × GroupId × Nat) :=
  Layout.text.pair <| Layout.text.pair Layout.u64

/-- A topic, a group and leases. -/
def leasesFields : Layout (TopicId × GroupId × List LeaseId) :=
  Layout.text.pair <| Layout.text.pair Layout.u64.seq

/-- In the order of the declaration, which the log depends on. -/
def variants : List (Variant AppRequest) :=
  [.of ProduceItem.layout
      (fun i => .produce i.topic i.priority i.contentType i.payload i.producerId i.seq i.tsMs)
      fun
        | .produce topic priority contentType payload producerId seq tsMs =>
            some ⟨topic, priority, contentType, payload, producerId, seq, tsMs⟩
        | _ => none,
    .of pollFields (fun (t, g, max, vis, ts) => .poll t g max vis ts)
      fun | .poll t g max vis ts => some (t, g, max, vis, ts) | _ => none,
    .of consumerFields (fun (t, g, id) => .ack t g id)
      fun | .ack t g id => some (t, g, id) | _ => none,
    .of consumerFields (fun (t, g, id) => .nack t g id)
      fun | .nack t g id => some (t, g, id) | _ => none,
    .of consumerFields (fun (t, g, o) => .commitOffset t g o)
      fun | .commitOffset t g o => some (t, g, o) | _ => none,
    .of Layout.text .createTopic fun | .createTopic t => some t | _ => none,
    .of Layout.text .deleteTopic fun | .deleteTopic t => some t | _ => none,
    .of (Layout.text.pair <| Layout.u64.pair Layout.u32)
      (fun (t, rate, burst) => .setRateLimit t rate burst)
      fun | .setRateLimit t rate burst => some (t, rate, burst) | _ => none,
    .of (Layout.text.pair <| Layout.u64.pair Layout.u64)
      (fun (t, messages, age) => .setRetention t messages age)
      fun | .setRetention t messages age => some (t, messages, age) | _ => none,
    .of leasesFields (fun (t, g, ids) => .ackMany t g ids)
      fun | .ackMany t g ids => some (t, g, ids) | _ => none,
    .of ProduceItem.layout.seq .produceMany fun | .produceMany items => some items | _ => none,
    .of leasesFields (fun (t, g, ids) => .nackMany t g ids)
      fun | .nackMany t g ids => some (t, g, ids) | _ => none,
    .of pollFields (fun (t, g, max, vis, ts) => .pollAuto t g max vis ts)
      fun | .pollAuto t g max vis ts => some (t, g, max, vis, ts) | _ => none,
    .of (Layout.text.pair <| Layout.text.pair <| Layout.u64.pair Layout.u64)
      (fun (t, g, o, ts) => .commitOffsetAt t g o ts)
      fun | .commitOffsetAt t g o ts => some (t, g, o, ts) | _ => none]

theorem variants_placed : Variant.Placed variants variants 0 :=
  ⟨fun _ => rfl, fun _ => rfl, fun _ => rfl, fun _ => rfl, fun _ => rfl, fun _ => rfl, fun _ => rfl,
    fun _ => rfl, fun _ => rfl, fun _ => rfl, fun _ => rfl, fun _ => rfl, fun _ => rfl,
    fun _ => rfl, trivial⟩

def layout : Layout AppRequest := .enum variants (by decide) variants_placed

end AppRequest

/-! ## Log entries -/

def LogId.layout : Layout LogId :=
  (Layout.u64.pair <| Layout.u64.pair Layout.u64).record
    (fun (term, nodeId, index) => ⟨⟨term, nodeId⟩, index⟩)
    (fun id => (id.leaderId.term, id.leaderId.nodeId, id.index)) fun _ => rfl

def Membership.layout : Layout Membership :=
  ((Layout.u64.finset.seq).pair (Layout.u64.ordMap Layout.text)).record
    (fun (configs, nodes) => ⟨configs, nodes⟩) (fun m => (m.configs, m.nodes)) fun _ => rfl

def StoredMembership.layout : Layout StoredMembership :=
  (LogId.layout.option.pair Membership.layout).record
    (fun (logId, membership) => ⟨logId, membership⟩) (fun m => (m.logId, m.membership))
    fun _ => rfl

/-! A release reads and writes the requests in its own way, `app`. -/

def EntryPayload.variants (app : Layout AppRequest) : List (Variant EntryPayload) :=
  [.plain .blank, .of app .normal fun | .normal req => some req | _ => none,
    .of Membership.layout .membership fun | .membership m => some m | _ => none]

theorem EntryPayload.variants_placed (app : Layout AppRequest) :
    Variant.Placed (variants app) (variants app) 0 :=
  ⟨fun _ => rfl, fun _ => rfl, fun _ => rfl, trivial⟩

def EntryPayload.layoutOf (app : Layout AppRequest) : Layout EntryPayload :=
  .enum (variants app) (show 3 ≤ 2 ^ 32 by decide) (variants_placed app)

def EntryPayload.layout : Layout EntryPayload := layoutOf AppRequest.layout

def Entry.layoutOf (app : Layout AppRequest) : Layout Entry :=
  (LogId.layout.pair (EntryPayload.layoutOf app)).record
    (fun (logId, payload) => ⟨logId, payload⟩) (fun e => (e.logId, e.payload)) fun _ => rfl

def Entry.layout : Layout Entry := layoutOf AppRequest.layout

/-! ## Requests of a peer -/

def Vote.layout : Layout Vote :=
  (Layout.u64.pair <| Layout.u64.pair Layout.bool).record
    (fun (term, nodeId, committed) => ⟨⟨term, nodeId⟩, committed⟩)
    (fun v => (v.leaderId.term, v.leaderId.nodeId, v.committed)) fun _ => rfl

def AppendEntriesRequest.layoutOf (app : Layout AppRequest) : Layout AppendEntriesRequest :=
  (Vote.layout.pair <| LogId.layout.option.pair <| (Entry.layoutOf app).seq.pair
    LogId.layout.option).record
    (fun (vote, prevLogId, entries, leaderCommit) => ⟨vote, prevLogId, entries, leaderCommit⟩)
    (fun r => (r.vote, r.prevLogId, r.entries, r.leaderCommit)) fun _ => rfl

def VoteRequest.layout : Layout VoteRequest :=
  (Vote.layout.pair LogId.layout.option).record (fun (vote, lastLogId) => ⟨vote, lastLogId⟩)
    (fun r => (r.vote, r.lastLogId)) fun _ => rfl

def SnapshotMeta.layout : Layout SnapshotMeta :=
  (LogId.layout.option.pair <| StoredMembership.layout.pair Layout.text).record
    (fun (lastLogId, lastMembership, snapshotId) => ⟨lastLogId, lastMembership, snapshotId⟩)
    (fun m => (m.lastLogId, m.lastMembership, m.snapshotId)) fun _ => rfl

def InstallSnapshotRequest.layout : Layout InstallSnapshotRequest :=
  (Vote.layout.pair <| SnapshotMeta.layout.pair <| Layout.u64.pair <| Layout.bytes.pair
    Layout.bool).record
    (fun (vote, snapshotMeta, offset, data, done) => ⟨vote, snapshotMeta, offset, data, done⟩)
    (fun r => (r.vote, r.snapshotMeta, r.offset, r.data, r.done)) fun _ => rfl

/-- In the order of the declaration, which nodes of other releases depend
on. -/
def PeerRequest.variants (app : Layout AppRequest) : List (Variant PeerRequest) :=
  [.of (AppendEntriesRequest.layoutOf app) .appendEntries
      fun | .appendEntries r => some r | _ => none,
    .of VoteRequest.layout .vote fun | .vote r => some r | _ => none,
    .of InstallSnapshotRequest.layout .installSnapshot
      fun | .installSnapshot r => some r | _ => none,
    .of Layout.text .auth fun | .auth token => some token | _ => none]

theorem PeerRequest.variants_placed (app : Layout AppRequest) :
    Variant.Placed (variants app) (variants app) 0 :=
  ⟨fun _ => rfl, fun _ => rfl, fun _ => rfl, fun _ => rfl, trivial⟩

theorem PeerRequest.length_variants (app : Layout AppRequest) :
    (variants app).length ≤ 2 ^ 32 :=
  show 4 ≤ 2 ^ 32 by decide

def PeerRequest.layout : Layout PeerRequest :=
  .enum (variants AppRequest.layout) (length_variants _) (variants_placed _)

/-! ## The writers are the encoders -/

theorem ContentType.layout_write (c : ContentType) : ContentType.layout.write c = c.encode := by
  cases c <;> exact List.append_nil _

theorem ProduceItem.layout_write (i : ProduceItem) : ProduceItem.layout.write i = i.encode := by
  have hct := ContentType.layout_write i.contentType
  simp only [ProduceItem.encode, ← hct, List.append_assoc]
  rfl

theorem AppRequest.layout_write (req : AppRequest) : AppRequest.layout.write req = req.encode := by
  have hitem : ProduceItem.layout.write = ProduceItem.encode := funext ProduceItem.layout_write
  cases req <;> simp only [AppRequest.encode, ← hitem, List.append_assoc] <;> rfl

theorem LogId.layout_write (id : LogId) : LogId.layout.write id = id.encode :=
  (List.append_assoc ..).symm

theorem EntryPayload.layout_write (p : EntryPayload) : EntryPayload.layout.write p = p.encode := by
  cases p with
  | blank => exact List.append_nil _
  | normal req => exact congrArg (varint 1 ++ ·) (AppRequest.layout_write req)
  | membership m => rfl

theorem Entry.layout_write (e : Entry) : Entry.layout.write e = e.encode :=
  congrArg₂ (· ++ ·) (LogId.layout_write e.logId) (EntryPayload.layout_write e.payload)

theorem Vote.layout_write (v : Vote) : Vote.layout.write v = v.encode :=
  (List.append_assoc ..).symm

theorem SnapshotMeta.layout_write (m : SnapshotMeta) : SnapshotMeta.layout.write m = m.encode := by
  have hid : LogId.layout.write = LogId.encode := funext LogId.layout_write
  simp only [SnapshotMeta.encode, ← hid, List.append_assoc]
  exact congrArg (option LogId.layout.write m.lastLogId ++ ·) (List.append_assoc ..)

theorem PeerRequest.layout_write (req : PeerRequest) :
    PeerRequest.layout.write req = req.encode := by
  have hid : LogId.layout.write = LogId.encode := funext LogId.layout_write
  have hentry : Entry.layout.write = Entry.encode := funext Entry.layout_write
  cases req with
  | appendEntries r =>
      simp only [PeerRequest.encode, AppendEntriesRequest.encode, ← hid, ← hentry,
        ← Vote.layout_write, List.append_assoc]
      rfl
  | vote r =>
      simp only [PeerRequest.encode, VoteRequest.encode, ← hid, ← Vote.layout_write]
      rfl
  | installSnapshot r =>
      simp only [PeerRequest.encode, InstallSnapshotRequest.encode, ← Vote.layout_write,
        ← SnapshotMeta.layout_write, List.append_assoc]
      rfl
  | auth token => rfl

/-! ## What fits -/

theorem fits_text {s : String} : Layout.text.Fits s ↔ s.utf8ByteSize < 2 ^ 64 := Iff.rfl

theorem fits_text_of_le {s : String} {n : Nat} (h : s.utf8ByteSize ≤ n) (hn : n < 2 ^ 64) :
    Layout.text.Fits s :=
  fits_text.mpr (h.trans_lt hn)

theorem fits_u64_of_le {n : Nat} (h : n ≤ u64Max) : Layout.u64.Fits n :=
  Layout.fits_u64.mpr (Nat.lt_of_le_pred (by decide) h)

theorem ContentType.layout_fits (c : ContentType) : ContentType.layout.Fits c := by
  cases c <;> trivial

theorem ProduceItem.Bounded.fits {item : ProduceItem} (h : item.Bounded) :
    ProduceItem.layout.Fits item := by
  have hpayload : item.payload.length < 2 ^ 64 := h.payload.trans_lt (by decide)
  exact ⟨fits_text_of_le h.topic (by decide), trivial, item.contentType.layout_fits, hpayload,
    fits_text_of_le h.producerId (by decide), fits_u64_of_le h.seq, fits_u64_of_le h.tsMs⟩

/-- What the client port writes can be stored and sent. -/
theorem AppRequest.Bounded.fits {app : AppRequest} (h : app.Bounded) :
    AppRequest.layout.Fits app := by
  have hnames : ∀ {topic group : String}, checkNames topic group = .ok () →
      Layout.text.Fits topic ∧ Layout.text.Fits group := by
    intro topic group hcheck
    obtain ⟨htopic, hgroup⟩ := checkNames_ok_iff.mp hcheck
    exact ⟨fits_text_of_le htopic (by decide), fits_text_of_le hgroup (by decide)⟩
  cases app with
  | poll topic group max vis ts | pollAuto topic group max vis ts =>
      obtain ⟨hcheck, hmax, hvis, hts⟩ := h
      have hmax : max < 2 ^ 32 := hmax.trans_lt (by decide)
      exact ⟨(hnames hcheck).1, (hnames hcheck).2, hmax, fits_u64_of_le (hvis.trans (by decide)),
        fits_u64_of_le hts⟩
  | commitOffsetAt topic group offset ts =>
      obtain ⟨hcheck, hoffset, hts⟩ := h
      exact ⟨(hnames hcheck).1, (hnames hcheck).2, fits_u64_of_le hoffset, fits_u64_of_le hts⟩
  | createTopic topic => exact fits_text_of_le h (by decide)
  | deleteTopic topic => exact fits_text_of_le ((Nat.le_add_right ..).trans h) (by decide)
  | setRateLimit topic rate burst =>
      exact ⟨fits_text_of_le h.1 (by decide), fits_u64_of_le h.2.1, h.2.2⟩
  | setRetention topic messages age =>
      exact ⟨fits_text_of_le h.1 (by decide), fits_u64_of_le h.2.1, fits_u64_of_le h.2.2⟩
  | ackMany topic group ids | nackMany topic group ids =>
      obtain ⟨hcheck, hcount, hids⟩ := h
      have hlen : ids.length < 2 ^ 64 := hcount.trans_lt (by decide)
      exact ⟨(hnames hcheck).1, (hnames hcheck).2, hlen, fun id hid => fits_u64_of_le (hids id hid)⟩
  | produceMany items =>
      have hlen : items.length < 2 ^ 64 := h.count.trans_lt (by decide)
      exact ⟨hlen, fun item hitem => (h.each item hitem).fits⟩
  | produce | ack | nack | commitOffset => exact h.elim

theorem LogId.InRange.fits {id : LogId} (h : id.InRange) : LogId.layout.Fits id :=
  ⟨fits_u64_of_le h.1, fits_u64_of_le h.2.1, fits_u64_of_le h.2.2⟩

/-- A message that replicates entries of the client port can be sent. -/
theorem AppendEntriesRequest.Replicates.fits {rateMilli : UInt64 → UInt64}
    {r : AppendEntriesRequest} (h : r.Replicates rateMilli) :
    PeerRequest.layout.Fits (.appendEntries r) := by
  have hcount : r.entries.length < 2 ^ 64 := h.count.trans_lt (by decide)
  have hentry : ∀ e ∈ r.entries, Entry.layout.Fits e := by
    intro e he
    obtain ⟨app, happ, hadmitted⟩ := h.entries e he
    have hpayload : EntryPayload.layout.Fits e.payload := happ ▸ hadmitted.bounded.fits
    exact ⟨(h.entryIds e he).fits, hpayload⟩
  exact ⟨⟨fits_u64_of_le h.term, fits_u64_of_le h.nodeId, trivial⟩,
    fun id hid => (h.prevLogId id hid).fits, ⟨hcount, hentry⟩,
    fun id hid => (h.leaderCommit id hid).fits⟩

end HermesMq
