import HermesMq.Codec
import HermesMq.RaftTypes
import HermesMq.Storage
import Mathlib.Data.Set.List

/-!
# The log store

The Raft log of a node is split over the database and a map of entries
that wait to be written. An append inserts into the map and sends a job
to the flusher thread; the flusher collects jobs into a batch, writes the
batch in one transaction, takes its entries out of the map and reports to
the callbacks of the appends. Truncation and purging first wait for a
barrier: a job the flusher answers once everything before it is done.
Reads merge the two halves.

`LogStore.flushStep` is the next atomic step of the flusher: one receive,
one transaction, or one critical section on the map.
-/

namespace HermesMq

def keyPurged : String := "log:purged"

def flushMaxEntries : Nat := 512

def flushMaxBytes : Nat := 8 * 1024 * 1024

/-! ## The flusher -/

inductive FlushJob where
  | append (entries : List (Nat × Bytes)) (callback : Option Nat)
  | barrier (done : Nat)
deriving DecidableEq

/-- What the flusher has collected. -/
structure FlushBatch where
  entries : List (Nat × Bytes) := []
  callbacks : List Nat := []
  barriers : List Nat := []
  bytes : Nat := 0
deriving DecidableEq

/-- Where the flusher thread is. -/
inductive Flusher where
  | idle
  /-- In the inner loop, about to look for another job. -/
  | collecting (batch : FlushBatch)
  /-- Out of the inner loop, about to write the batch. -/
  | ready (batch : FlushBatch)
  /-- The batch is written, about to take it out of the pending map. -/
  | written (batch : FlushBatch)
deriving DecidableEq

namespace FlushBatch

def full (batch : FlushBatch) : Bool :=
  batch.entries.length ≥ flushMaxEntries || batch.bytes ≥ flushMaxBytes

/-- One round of the inner loop, with the job it received. -/
def receive (batch : FlushBatch) : FlushJob → Flusher
  | .append entries callback =>
      let batch := { batch with
        entries := batch.entries ++ entries
        callbacks := batch.callbacks ++ callback.toList
        bytes := batch.bytes + (entries.map (·.2.length)).foldl (· + ·) 0 }
      if batch.full then .ready batch else .collecting batch
  | .barrier done => .ready { batch with barriers := batch.barriers ++ [done] }

end FlushBatch

structure LogStore where
  db : Storage := {}
  pending : OrdMap Nat Bytes := ∅
  jobs : List FlushJob := []
  flusher : Flusher := .idle
  /-- The callbacks called so far, and whether with success. -/
  completed : List (Nat × Bool) := []
  /-- The barriers answered so far. -/
  released : List Nat := []
deriving DecidableEq

namespace LogStore

/-- The end of the flusher's round: callbacks, then barriers. -/
def complete (s : LogStore) (batch : FlushBatch) (ok : Bool) : LogStore :=
  { s with flusher := .idle
           completed := s.completed ++ batch.callbacks.map (·, ok)
           released := s.released ++ batch.barriers }

/-- The next step of the flusher thread, `none` while it waits for a job.
`ok` says whether a write succeeds. A failed batch stays in the pending
map and the flusher goes on. -/
def flushStep (s : LogStore) (ok : Bool) : Option LogStore :=
  match s.flusher, s.jobs with
  | .idle, [] => none
  | .idle, job :: rest => some { s with jobs := rest, flusher := ({} : FlushBatch).receive job }
  | .collecting batch, [] => some { s with flusher := .ready batch }
  | .collecting batch, job :: rest =>
      some { s with jobs := rest, flusher := batch.receive job }
  | .ready batch, _ =>
      if batch.entries = [] then some (s.complete batch true)
      else if ok then
        some { s with db := s.db.appendLog batch.entries, flusher := .written batch }
      else some (s.complete batch false)
  | .written batch, _ =>
      some ({ s with pending := s.pending.eraseAll (batch.entries.map Prod.fst) }.complete
        batch true)

def send (s : LogStore) (job : FlushJob) : LogStore := { s with jobs := s.jobs ++ [job] }

/-! ## Reading -/

section Read

-- `postcard` at the types the log is made of
variable (entryCodec : Codec Entry) (logIdCodec : Codec LogId)

inductive Bound where
  | included (index : Nat)
  | excluded (index : Nat)
  | unbounded

/-- The greatest index of the two halves. -/
def lastIndex (s : LogStore) : Option Nat :=
  (s.db.lastLogIndex.toList ++ s.pending.lastKey?.toList).max?

def startOf : Bound → Nat
  | .included index => index
  | .excluded index => wrapSucc index
  | .unbounded => 0

def endOf (s : LogStore) : Bound → Nat
  | .included index => wrapSucc index
  | .excluded index => index
  | .unbounded => (s.lastIndex.map wrapSucc).getD 0

/-- The first half of a read: what the database has. -/
def readDb (s : LogStore) (start stop : Nat) : OrdMap Nat Bytes :=
  .ofList (s.db.readLog start stop)

/-- The second half of a read: the pending entries over it. -/
def readPending (s : LogStore) (start stop : Nat) (merged : OrdMap Nat Bytes) :
    OrdMap Nat Bytes :=
  merged.insertAll (s.pending.range start stop).entries

/-- What a read returns for the merged bytes. -/
def decodeEntries (merged : OrdMap Nat Bytes) : Except String (List Entry) :=
  merged.values.mapM entryCodec.dec

/-- A read whose first half sees the store as `s₁` and whose second half
sees it as `s₂`. A range that ends before it starts makes the ordered map
panic; this is its contract, though a map that never had an entry skips
the check. -/
def readRange (s₁ s₂ : LogStore) (start stop : Nat) : Except String (List Entry) :=
  if stop < start then .error "range start is greater than range end in BTreeMap"
  else decodeEntries entryCodec (s₂.readPending start stop (s₁.readDb start stop))

/-- A read with no step of another thread in it. -/
def tryGetLogEntries (s : LogStore) (first last : Bound) : Except String (List Entry) :=
  readRange entryCodec s s (startOf first) (s.endOf last)

theorem merged_get? (s₁ s₂ : LogStore) (start stop i : Nat) :
    (s₂.readPending start stop (s₁.readDb start stop)).get? i =
      if start ≤ i ∧ i < stop then (s₂.pending.get? i).or (s₁.db.log.get? i) else none := by
  rw [readPending, OrdMap.get?_insertAll_entries, readDb, Storage.readLog, OrdMap.ofList_entries,
    OrdMap.get?_range, OrdMap.get?_range]
  split_ifs <;> rfl

/-- Decoding succeeds on bytes that an encoder wrote. -/
theorem decodeEntries_encoded {merged : OrdMap Nat Bytes}
    (h : ∀ i b, merged.get? i = some b → ∃ e, entryCodec.enc e = b) :
    ∃ out, decodeEntries entryCodec merged = .ok out ∧
      ∀ e, e ∈ out ↔ ∃ i, merged.get? i = some (entryCodec.enc e) := by
  have hvalues : merged.values ∈ Set.range (List.map entryCodec.enc) := by
    rw [Set.range_list_map]
    intro b hb
    obtain ⟨i, hi⟩ := OrdMap.mem_values.mp hb
    exact h i b hi
  obtain ⟨out, hout⟩ := hvalues
  refine ⟨out, ?_, fun e => ?_⟩
  · rw [decodeEntries, ← hout, entryCodec.mapM_dec]
  · rw [← OrdMap.mem_values, ← hout, List.mem_map]
    exact ⟨fun he => ⟨e, he, rfl⟩, fun ⟨e', he', heq⟩ => entryCodec.enc_inj heq ▸ he'⟩

structure LogState where
  lastPurgedLogId : Option LogId
  lastLogId : Option LogId
deriving DecidableEq

/-- The bytes of an entry, from the pending map if it has them. -/
def bytesAt (s : LogStore) (index : Nat) : Option Bytes :=
  match s.pending.get? index with
  | some bytes => some bytes
  | none => (s.db.readLog index (wrapSucc index)).head?.map Prod.snd

def lastPurged (s : LogStore) : Except String (Option LogId) :=
  match s.db.get keyPurged with
  | some bytes => (logIdCodec.dec bytes).map some
  | none => .ok none

def getLogState (s : LogStore) : Except String LogState := do
  let lastPurged ← s.lastPurged logIdCodec
  match s.lastIndex with
  | none => return ⟨lastPurged, lastPurged⟩
  | some index =>
      match s.bytesAt index with
      | none => return ⟨lastPurged, lastPurged⟩
      | some bytes =>
          let entry ← entryCodec.dec bytes
          return ⟨lastPurged, some entry.logId⟩

/-- The committed pointer as it is stored; the record may hold none. -/
def storedCommitted (committedCodec : Codec (Option LogId)) (db : Storage) :
    Except String (Option LogId) :=
  match db.readCommitted with
  | some bytes => committedCodec.dec bytes
  | none => .ok none

/-- Never advertise a commit the log cannot serve. -/
def readCommitted (committedCodec : Codec (Option LogId)) (s : LogStore) :
    Except String (Option LogId) := do
  match ← storedCommitted committedCodec s.db with
  | none => return none
  | some committed =>
      match s.lastIndex with
      | some last => if committed.index ≤ last then return some committed else return none
      | none => return none

/-! ## Writing -/

/-- The bytes an append sends to the flusher. -/
def encodeEntries (entries : List Entry) : List (Nat × Bytes) :=
  entries.map fun e => (e.logId.index, entryCodec.enc e)

/-- The critical section of an append. -/
def insertPending (s : LogStore) (batch : List (Nat × Bytes)) : LogStore :=
  { s with pending := s.pending.insertAll batch }

/-- `truncate` after its barrier. -/
def truncate (s : LogStore) (index : Nat) : LogStore :=
  { s with pending := s.pending.filter fun i _ => i < index
           db := s.db.truncateLogFrom index }

/-- Record the purge point, unless a later one is recorded, and purge. -/
def markPurged (db : Storage) (upto : LogId) : Except String Storage :=
  match db.get keyPurged with
  | none => .ok ((db.put keyPurged (logIdCodec.enc upto)).purgeLogUpto upto.index)
  | some bytes => do
      let current ← logIdCodec.dec bytes
      if current.index ≥ upto.index then return db
      else return (db.put keyPurged (logIdCodec.enc upto)).purgeLogUpto upto.index

theorem markPurged_eq {db : Storage} {purged : Option LogId}
    (h : db.get keyPurged = purged.map logIdCodec.enc) (upto : LogId) :
    markPurged logIdCodec db upto =
      .ok (if purged.all (·.index < upto.index) then
        (db.put keyPurged (logIdCodec.enc upto)).purgeLogUpto upto.index else db) := by
  cases purged with
  | none =>
      rw [markPurged, h]
      rfl
  | some p =>
      have hmatch : markPurged logIdCodec db upto =
          if p.index ≥ upto.index then .ok db
          else .ok ((db.put keyPurged (logIdCodec.enc upto)).purgeLogUpto upto.index) := by
        rw [markPurged, h, Option.map_some]
        simp only [logIdCodec.dec_enc]
        rfl
      rw [hmatch, Option.all_some]
      by_cases hp : p.index < upto.index
      · rw [if_neg (Nat.not_le.mpr hp), if_pos (decide_eq_true hp)]
      · rw [if_pos (Nat.not_lt.mp hp), if_neg (by simpa using hp)]

/-- `purge` after its barrier. -/
def purge (s : LogStore) (upto : LogId) : Except String LogStore := do
  let db ← markPurged logIdCodec s.db upto
  return { s with pending := s.pending.splitOff (wrapSucc upto.index), db := db }

/-- Purging leaves the flusher and its queue alone. -/
theorem purge_frame {s s' : LogStore} {upto : LogId} (h : s.purge logIdCodec upto = .ok s') :
    s'.jobs = s.jobs ∧ s'.flusher = s.flusher ∧ s'.released = s.released ∧
      s'.completed = s.completed := by
  unfold purge at h
  cases hdb : markPurged logIdCodec s.db upto with
  | error msg =>
      rw [hdb] at h
      cases h
  | ok db =>
      rw [hdb] at h
      obtain rfl := Except.ok.inj h
      exact ⟨rfl, rfl, rfl, rfl⟩

end Read

end LogStore

end HermesMq
