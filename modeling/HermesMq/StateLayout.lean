import HermesMq.EntryLayout
import HermesMq.TopicSettings

/-!
# Snapshots as bytes

The layout `postcard` gives the state of a node: the fields of every record
in the order of their declaration. The layout of older releases lacks the
activity stamp of a group.

`decodeStateBytes` is `decode_state` down to the bytes. It refines the
decoder over an arbitrary codec (`decodeState_of_decodeStateBytes`), so what
is known of that one holds of it.
-/

namespace HermesMq

open Wire

/-! ## The parts of a queue -/

def Message.layout : Layout Message :=
  (Layout.u64.pair <| Priority.layout.pair <| ContentType.layout.pair <| Layout.bytes.pair
    Layout.u64).record
    (fun (offset, priority, contentType, payload, tsMs) =>
      ⟨offset, priority, contentType, payload, tsMs⟩)
    (fun m => (m.offset, m.priority, m.contentType, m.payload, m.tsMs)) fun _ => rfl

def Lease.layout : Layout Lease :=
  (Layout.u64.pair Layout.u64).record (fun (offset, deadlineMs) => ⟨offset, deadlineMs⟩)
    (fun l => (l.offset, l.deadlineMs)) fun _ => rfl

def DedupKey.layout : Layout DedupKey :=
  (Layout.text.pair Layout.u64).record toLex ofLex fun _ => rfl

/-- The fields of a group that every release has, and then `more`. -/
def groupFields {β : Type} (more : Layout β) :
    Layout (Offset × Finset Offset × OrdMap LeaseId Lease × OrdMap Offset Nat × β) :=
  Layout.u64.pair <| Layout.u64.finset.pair <| (Layout.u64.ordMap Lease.layout).pair <|
    (Layout.u64.ordMap Layout.u64).pair more

def GroupState.layout : Layout GroupState :=
  (groupFields (Layout.u64.pair Layout.u64)).record
    (fun (ackWatermark, ackedAbove, inFlight, leasedOffsets, pollCount, lastActiveMs) =>
      ⟨ackWatermark, ackedAbove, inFlight, leasedOffsets, pollCount, lastActiveMs⟩)
    (fun g => (g.ackWatermark, g.ackedAbove, g.inFlight, g.leasedOffsets, g.pollCount,
      g.lastActiveMs)) fun _ => rfl

def GroupStateV0.layout : Layout GroupStateV0 :=
  (groupFields Layout.u64).record
    (fun (ackWatermark, ackedAbove, inFlight, leasedOffsets, pollCount) =>
      ⟨ackWatermark, ackedAbove, inFlight, leasedOffsets, pollCount⟩)
    (fun g => (g.ackWatermark, g.ackedAbove, g.inFlight, g.leasedOffsets, g.pollCount))
    fun _ => rfl

/-- The fields of a topic, whatever its groups are. -/
def topicFields {G : Type} (group : Layout G) :
    Layout (Offset × OrdMap Offset Message × OrdMap DedupKey Offset × List DedupKey ×
      OrdMap GroupId G × Nat × Nat × Nat × Nat) :=
  Layout.u64.pair <| (Layout.u64.ordMap Message.layout).pair <|
    (DedupKey.layout.ordMap Layout.u64).pair <| DedupKey.layout.seq.pair <|
    (Layout.text.ordMap group).pair <| Layout.u64.pair <| Layout.u32.pair <|
    Layout.u64.pair Layout.u64

def TopicState.layout : Layout TopicState :=
  (topicFields GroupState.layout).record
    (fun (nextOffset, messages, dedup, dedupOrder, groups, rate, burst, maxMessages, maxAgeMs) =>
      ⟨nextOffset, messages, dedup, dedupOrder, groups, rate, burst, maxMessages, maxAgeMs⟩)
    (fun t => (t.nextOffset, t.messages, t.dedup, t.dedupOrder, t.groups, t.rateMilliPerSec,
      t.burst, t.retainMaxMessages, t.retainMaxAgeMs)) fun _ => rfl

def TopicStateV0.layout : Layout TopicStateV0 :=
  (topicFields GroupStateV0.layout).record
    (fun (nextOffset, messages, dedup, dedupOrder, groups, rate, burst, maxMessages, maxAgeMs) =>
      ⟨nextOffset, messages, dedup, dedupOrder, groups, rate, burst, maxMessages, maxAgeMs⟩)
    (fun t => (t.nextOffset, t.messages, t.dedup, t.dedupOrder, t.groups, t.rateMilliPerSec,
      t.burst, t.retainMaxMessages, t.retainMaxAgeMs)) fun _ => rfl

def Queue.layout : Layout Queue :=
  ((Layout.text.ordMap TopicState.layout).pair Layout.u64).record
    (fun (topics, nextLeaseId) => ⟨topics, nextLeaseId⟩) (fun q => (q.topics, q.nextLeaseId))
    fun _ => rfl

def QueueV0.layout : Layout QueueV0 :=
  ((Layout.text.ordMap TopicStateV0.layout).pair Layout.u64).record
    (fun (topics, nextLeaseId) => ⟨topics, nextLeaseId⟩) (fun q => (q.topics, q.nextLeaseId))
    fun _ => rfl

/-! ## The state of a node -/

def StateMachineData.layout : Layout StateMachineData :=
  (LogId.layout.option.pair <| StoredMembership.layout.pair Queue.layout).record
    (fun (lastApplied, lastMembership, queue) => ⟨lastApplied, lastMembership, queue⟩)
    (fun d => (d.lastApplied, d.lastMembership, d.queue)) fun _ => rfl

def StateMachineDataV0.layout : Layout StateMachineDataV0 :=
  (LogId.layout.option.pair <| StoredMembership.layout.pair QueueV0.layout).record
    (fun (lastApplied, lastMembership, queue) => ⟨lastApplied, lastMembership, queue⟩)
    (fun d => (d.lastApplied, d.lastMembership, d.queue)) fun _ => rfl

def encodeStateBytes (data : StateMachineData) : Bytes :=
  snapshotFormat ++ StateMachineData.layout.write data

section Decode

-- the text `postcard` has for bytes that it cannot read
variable (postcardError : Bytes → String)

def dec {α : Type} (l : Layout α) (bytes : Bytes) : Except String α :=
  match l.decode bytes with
  | some a => .ok a
  | none => .error (postcardError bytes)

/-- The state in the bytes, before any check. -/
def parseStateBytes (bytes : Bytes) : Except String StateMachineData :=
  match snapshotFormat.isPrefixOf? bytes with
  | some rest => dec postcardError StateMachineData.layout rest
  | none => (dec postcardError StateMachineDataV0.layout bytes).map StateMachineDataV0.upgrade

def decodeStateBytes (bytes : Bytes) : Except String StateMachineData := do
  let data ← parseStateBytes postcardError bytes
  let data := { data with queue := data.queue.normalize }
  match data.queue.validate with
  | .error reason => .error s!"snapshot state is not self-consistent: {reason}"
  | .ok () => .ok data

variable {postcardError}

theorem dec_ok_iff {α : Type} {l : Layout α} {bytes : Bytes} {a : α} :
    dec postcardError l bytes = .ok a ↔ l.decode bytes = some a := by
  unfold dec
  cases l.decode bytes with
  | none => exact ⟨fun h => (by cases h), fun h => (by cases h)⟩
  | some b => rw [Except.ok.injEq, Option.some.injEq]

theorem decodeStateBytes_ok_iff {bytes : Bytes} {data : StateMachineData} :
    decodeStateBytes postcardError bytes = .ok data ↔
      ∃ raw, parseStateBytes postcardError bytes = .ok raw ∧
        data = { raw with queue := raw.queue.normalize } ∧ data.queue.validate = .ok () := by
  unfold decodeStateBytes
  cases parseStateBytes postcardError bytes with
  | error reason => exact ⟨fun h => (by cases h), fun ⟨_, h, _⟩ => (by cases h)⟩
  | ok raw =>
      simp only [bind, Except.bind, Except.ok.injEq, exists_eq_left']
      cases hv : raw.queue.normalize.validate with
      | error reason =>
          refine ⟨fun h => (by cases h), fun ⟨hdata, hok⟩ => ?_⟩
          rw [hdata] at hok
          cases hv.symm.trans hok
      | ok u =>
          rw [Except.ok.injEq]
          refine ⟨fun h => ⟨h.symm, h ▸ hv⟩, fun h => h.1.symm⟩

/-! ## The decoder over a codec -/

/-- `postcard` at the current layout, as a codec. -/
noncomputable def stateCodec : Codec StateMachineData :=
  .ofLayout StateMachineData.layout [2] fun _ => rfl

/-- What the bytes decode to, they decode to over the codec. -/
theorem decodeState_of_decodeStateBytes {bytes : Bytes} {data : StateMachineData}
    (h : decodeStateBytes postcardError bytes = .ok data) :
    decodeState stateCodec (dec postcardError StateMachineDataV0.layout) bytes = .ok data := by
  obtain ⟨raw, hraw, rfl, hv⟩ := decodeStateBytes_ok_iff.mp h
  have hparse : parseState stateCodec (dec postcardError StateMachineDataV0.layout) bytes =
      .ok raw := by
    unfold parseStateBytes at hraw
    unfold parseState
    cases hstrip : snapshotFormat.isPrefixOf? bytes with
    | none => rwa [hstrip] at hraw
    | some rest =>
        rw [hstrip] at hraw
        simp only [stateCodec, Codec.ofLayout, dec_ok_iff.mp hraw]
  simp only [decodeState, hparse, bind, Except.bind, hv]

end Decode

/-! ## What a decoded state holds fits again -/

theorem GroupStateV0.fits_upgrade {g : GroupStateV0} (h : GroupStateV0.layout.Fits g) :
    GroupState.layout.Fits g.upgrade :=
  ⟨h.1, h.2.1, h.2.2.1, h.2.2.2.1, h.2.2.2.2, fits_u64_of_le (Nat.zero_le _)⟩

theorem TopicStateV0.fits_upgrade {t : TopicStateV0} (h : TopicStateV0.layout.Fits t) :
    TopicState.layout.Fits t.upgrade := by
  obtain ⟨hnext, hmessages, hdedup, horder, hgroups, hsettings⟩ := h
  exact ⟨hnext, hmessages, hdedup, horder,
    Layout.fits_mapVals hgroups fun _ _ => GroupStateV0.fits_upgrade, hsettings⟩

theorem StateMachineDataV0.fits_upgrade {d : StateMachineDataV0}
    (h : StateMachineDataV0.layout.Fits d) : StateMachineData.layout.Fits d.upgrade :=
  ⟨h.1, h.2.1, Layout.fits_mapVals h.2.2.1 fun _ _ => TopicStateV0.fits_upgrade, h.2.2.2⟩

theorem Queue.fits_normalize {q : Queue} (h : Queue.layout.Fits q) :
    Queue.layout.Fits q.normalize := by
  refine ⟨Layout.fits_mapVals h.1 fun _ t ht => ?_, h.2⟩
  obtain ⟨hnext, hmessages, hdedup, horder, hgroups, hsettings⟩ := ht
  refine ⟨hnext, hmessages, hdedup, horder, Layout.fits_mapVals hgroups fun _ g hg => ?_,
    hsettings⟩
  split_ifs
  · exact ⟨hnext, hg.2⟩
  · exact hg

variable {postcardError : Bytes → String}

theorem fits_of_parseStateBytes {bytes : Bytes} {data : StateMachineData}
    (h : parseStateBytes postcardError bytes = .ok data) :
    StateMachineData.layout.Fits data := by
  unfold parseStateBytes at h
  split at h
  · obtain ⟨x, hread, rfl⟩ := Option.map_eq_some_iff.mp (dec_ok_iff.mp h)
    exact StateMachineData.layout.fits_read hread
  · cases hv0 : dec postcardError StateMachineDataV0.layout bytes with
    | error reason =>
        rw [hv0] at h
        cases h
    | ok d =>
        rw [hv0] at h
        obtain ⟨x, hread, rfl⟩ := Option.map_eq_some_iff.mp (dec_ok_iff.mp hv0)
        cases h
        exact StateMachineDataV0.fits_upgrade (StateMachineDataV0.layout.fits_read hread)

theorem fits_of_decodeStateBytes {bytes : Bytes} {data : StateMachineData}
    (h : decodeStateBytes postcardError bytes = .ok data) :
    StateMachineData.layout.Fits data := by
  obtain ⟨raw, hraw, rfl, -⟩ := decodeStateBytes_ok_iff.mp h
  obtain ⟨hid, hmembership, hqueue⟩ := fits_of_parseStateBytes hraw
  exact ⟨hid, hmembership, Queue.fits_normalize hqueue⟩

/-! ## Reading back what was written -/

theorem parseStateBytes_encode {data : StateMachineData} (h : StateMachineData.layout.Fits data)
    (behind : Bytes) :
    parseStateBytes postcardError (encodeStateBytes data ++ behind) = .ok data := by
  have hread := StateMachineData.layout.read_write h behind
  have hdecode : StateMachineData.layout.decode (StateMachineData.layout.write data ++ behind) =
      some data := by
    rw [Layout.decode, hread, Option.map_some]
  exact dec_ok_iff.mpr hdecode

/-- A state that fits and passes `validate` is read back, whatever follows
its bytes. -/
theorem decodeStateBytes_encode {data : StateMachineData}
    (h : StateMachineData.layout.Fits data) (hv : data.queue.validate = .ok ()) (behind : Bytes) :
    decodeStateBytes postcardError (encodeStateBytes data ++ behind) = .ok data := by
  have hnorm : data.queue.normalize = data.queue :=
    Queue.normalize_of_valid (validate_ok_iff.mp hv).2
  refine decodeStateBytes_ok_iff.mpr ⟨data, parseStateBytes_encode h behind, ?_, hv⟩
  rw [hnorm]

theorem decode_of_prefix {α : Type} {l : Layout α} {a : α} (h : l.Fits a) {p : Bytes}
    (hp : p <+: l.write a) (hne : p ≠ l.write a) : l.decode p = none := by
  cases hread : l.read p with
  | none => rw [Layout.decode, hread, Option.map_none]
  | some x => exact absurd (l.read_prefix h hp hread).1 hne

/-- A part of the bytes of a state is not read as anything. -/
theorem decodeStateBytes_torn {data : StateMachineData} (h : StateMachineData.layout.Fits data)
    {p : Bytes} (hp : p <+: encodeStateBytes data) (hne : p ≠ encodeStateBytes data) :
    ∃ unread, decodeStateBytes postcardError p = .error (postcardError unread) := by
  match p with
  | [] => exact ⟨[], rfl⟩
  | [b] =>
      obtain ⟨rfl, -⟩ := List.cons_prefix_cons.mp hp
      exact ⟨_, rfl⟩
  | b :: b' :: rest =>
      obtain ⟨rfl, hmark⟩ := List.cons_prefix_cons.mp hp
      obtain ⟨rfl, hbody⟩ := List.cons_prefix_cons.mp hmark
      have hrest : rest ≠ StateMachineData.layout.write data := fun heq => hne (heq ▸ rfl)
      have hdec : dec postcardError StateMachineData.layout rest = .error (postcardError rest) := by
        rw [dec, decode_of_prefix h hbody hrest]
      refine ⟨rest, ?_⟩
      change (dec postcardError StateMachineData.layout rest >>= _) = _
      rw [hdec]
      rfl

/-! ## Bytes of older releases -/

/-- They begin with the tag of an option, so they are not taken for bytes
of the current layout. -/
theorem parseStateBytes_legacy {d : StateMachineDataV0} (h : StateMachineDataV0.layout.Fits d)
    (behind : Bytes) :
    parseStateBytes postcardError (StateMachineDataV0.layout.write d ++ behind) =
      .ok d.upgrade := by
  have hstrip : snapshotFormat.isPrefixOf? (StateMachineDataV0.layout.write d ++ behind) =
      none := by
    obtain ⟨_ | _, _, _⟩ := d <;> rfl
  have hread := StateMachineDataV0.layout.read_write h behind
  have hdec : dec postcardError StateMachineDataV0.layout
      (StateMachineDataV0.layout.write d ++ behind) = .ok d := by
    rw [dec_ok_iff, Layout.decode, hread, Option.map_some]
  rw [parseStateBytes, hstrip, hdec]
  rfl

theorem decodeStateBytes_legacy_torn {d : StateMachineDataV0}
    (h : StateMachineDataV0.layout.Fits d) {p : Bytes}
    (hp : p <+: StateMachineDataV0.layout.write d)
    (hne : p ≠ StateMachineDataV0.layout.write d) :
    decodeStateBytes postcardError p = .error (postcardError p) := by
  have hstrip : snapshotFormat.isPrefixOf? p = none := by
    cases p with
    | nil => rfl
    | cons b rest =>
        obtain ⟨_ | _, _, _⟩ := d <;> rw [(List.cons_prefix_cons.mp hp).1] <;> rfl
  have hdec : dec postcardError StateMachineDataV0.layout p = .error (postcardError p) := by
    rw [dec, decode_of_prefix h hp hne]
  rw [decodeStateBytes, parseStateBytes, hstrip, hdec]
  rfl

end HermesMq
