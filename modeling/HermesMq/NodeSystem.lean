import HermesMq.Cluster
import HermesMq.Journal
import HermesMq.LogInvariant
import HermesMq.PurgeRetry

/-!
# A node and its disk

One node of the cluster: the log store with its flusher thread, the state
machine with its snapshots, and the database that both write to. A write
waits for the disk, except that of the committed pointer, which the disk may
lose until the next write that waits. The process may stop between any two
steps; it then opens what the disk has, repairs it, and hands the state
machine to Raft. What Raft does with it before the node takes part again is
a parameter of the machine (`reapply`); `Reapplies` is what its documents
say of it.

The machine also carries what its theorems speak of: the entries that Raft
has committed, and the log of this node as if nothing had been purged from
it. Raft's side of the contract is in the guards of the steps. A write that
fails is not among the steps: Raft stops the node on any storage error.
-/

namespace HermesMq

/-- `postcard` at the types that a node stores. -/
structure NodeCodecs where
  postcard : Codec StateMachineData
  decV0 : Bytes → Except String StateMachineDataV0
  stored : Codec StoredSnapshot
  entry : Codec Entry
  logId : Codec LogId
  committed : Codec (Option LogId)

def Storage.saveVote (db : Storage) (vote : Bytes) : Storage := db.put keyVote vote

def Storage.saveCommitted (db : Storage) (committed : Bytes) : Storage :=
  db.put keyCommitted committed

namespace LogStore

/-- The next step of the flusher is a write. -/
def writing (s : LogStore) : Bool :=
  match s.flusher with
  | .ready batch => batch.entries ≠ []
  | _ => false

/-- The callbacks that the next step of the flusher calls. -/
def finishing (s : LogStore) : List Nat :=
  match s.flusher with
  | .ready batch => if batch.entries = [] then batch.callbacks else []
  | .written batch => batch.callbacks
  | .idle | .collecting _ => []

/-- What the flusher has still to write, in order. -/
def queue (s : LogStore) : List (Nat × Bytes) :=
  s.flusher.toWrite ++ s.jobs.flatMap FlushJob.entries

end LogStore

structure Node where
  logs : LogStore := {}
  snaps : SnapshotSystem := {}
  /-- The writes that a purge has still to make. -/
  writes : List Storage.Write := []
  /-- What else the disk may have: the database before each write since the
  last one that waited. -/
  earlier : List Storage := []
  /-- The entries that Raft has committed. -/
  committed : List Entry := []
  /-- The log of this node, as if nothing had been purged. -/
  log : List Entry := []
  /-- How much of its log the process has been told is committed. -/
  told : Nat := 0
  /-- The most that any process of this node has been told. -/
  known : Nat := 0
  /-- How much of its log the node has reported to be on disk. -/
  acked : Nat := 0
  /-- The vote last saved. -/
  vote : Option Bytes := none

inductive NodeEvent where
  /-- Raft commits another entry. -/
  | commit (entry : Entry)
  | append (es : List Entry)
  /-- The next step of the flusher thread. -/
  | flush
  /-- `truncate` or `purge` after its barrier. -/
  | truncate (index : Nat)
  | purge (upto : LogId)
  /-- The next write of the purge. -/
  | purgeWrite
  | saveVote (vote : Bytes)
  /-- The node learns that its log is committed up to here. -/
  | saveCommitted (upto : Nat)
  /-- The state machine applies the next `count` committed entries. -/
  | apply (count : Nat)
  | cloneState
  | persistBuild
  /-- A snapshot arrives that another node has built. -/
  | receive (upto : Nat) (snapshotId : String)
  | persistInstall
  | replaceState
  /-- The process stops, and starts again with what the disk has. -/
  | crash (db : Storage)

section Start

variable (κ : NodeCodecs) (reapply : StateMachineStore → Except String StateMachineData)

/-- Raft applies again what the log has above the applied state, up to the
committed pointer it reads, if the log has all of that. Nothing is said of a
log that has not. -/
structure Reapplies : Prop where
  nothing : ∀ store, LogStore.readCommitted κ.committed { db := store.db } = .ok none →
    reapply store = .ok store.data
  applied : ∀ store c, LogStore.readCommitted κ.committed { db := store.db } = .ok (some c) →
    c.index < store.data.covered → reapply store = .ok store.data
  committed : ∀ store c entries,
    LogStore.readCommitted κ.committed { db := store.db } = .ok (some c) →
    store.data.covered ≤ c.index →
    LogStore.tryGetLogEntries κ.entry { db := store.db } (.included store.data.covered)
      (.excluded (c.index + 1)) = .ok entries →
    store.data.covered + entries.length = c.index + 1 →
    reapply store = .ok (store.data.apply entries).1

/-- `build_raft` up to where the node takes part again. -/
def start (db : Storage) : Storage × Except String StateMachineStore :=
  match recoverConsistency κ.stored κ.committed db with
  | (db, .error e) => (db, .error e)
  | (db, .ok ()) => (db, do
      let store ← StateMachineStore.new κ.postcard κ.decV0 κ.stored db
      let data ← reapply store
      return { store with data := data })

end Start

namespace Node

variable (κ : NodeCodecs)

/-- The log store and the state machine share the database. -/
def setDb (n : Node) (db : Storage) : Node :=
  { n with logs := { n.logs with db := db }
           snaps := { n.snaps with store := { n.snaps.store with db := db } } }

/-- A write that waits for the disk, and for every write before it. -/
def writeNow (n : Node) (db : Storage) : Node := { n.setDb db with earlier := [] }

/-- A write with `Durability::Eventual`. -/
def writeLater (n : Node) (db : Storage) : Node :=
  { n.setDb db with earlier := n.logs.db :: n.earlier }

def withSnaps (n : Node) (snaps : SnapshotSystem) : Node :=
  { n with snaps := snaps, logs := { n.logs with db := snaps.store.db } }

/-- How much of the log the persisted snapshot covers. -/
def base (n : Node) : Nat := n.snaps.persisted κ.stored

/-- How much of the log the disk has, or the snapshot on it. -/
def durable (n : Node) : Nat :=
  Journal.durable (n.log.map κ.entry.enc) (n.base κ) n.logs.queue

/-- The callback is named after the end of the log that it reports. -/
def append (n : Node) (es : List Entry) : Node :=
  let batch := LogStore.encodeEntries κ.entry es
  let callback := n.log.length + es.length
  { n with logs := (n.logs.insertPending batch).send (.append batch (some callback))
           log := n.log ++ es }

def flush (n : Node) : Option Node :=
  (n.logs.flushStep true).map fun logs =>
    let acked := n.logs.finishing.foldl max n.acked
    if n.logs.writing then { n.writeNow logs.db with logs := logs, acked := acked }
    else { n with logs := logs, acked := acked }

def own (n : Node) (event : SnapshotEvent) : Option Node :=
  (n.snaps.step κ.postcard κ.decV0 κ.stored event).map n.withSnaps

/-- Raft installs no snapshot of less than it was told, and has removed a log
that conflicts with it. -/
def persistInstall (n : Node) : Option Node :=
  match n.snaps.install with
  | .decoded stored _ =>
      let upto := stored.covered
      if n.told ≤ upto ∧ (upto ≤ n.log.length → n.log.take upto = n.committed.take upto) then
        (n.own κ (.persistInstall true)).map fun n' =>
          { n' with earlier := [], told := upto, known := max n.known upto
                    log := if upto ≤ n.log.length then n.log else n.committed.take upto }
      else none
  | .none | .persisted .. => none

/-- A snapshot as another node builds it. -/
def snapshotOf (log : List Entry) (upto : Nat) (snapshotId : String) : StoredSnapshot :=
  let data := replay log upto
  { snapshotMeta := ⟨data.lastApplied, data.lastMembership, snapshotId⟩
    data := encodeState κ.postcard data }

variable (reapply : StateMachineStore → Except String StateMachineData)

def crash (n : Node) (db : Storage) : Option Node :=
  match start κ reapply db with
  | (_, .error _) => none
  | (db, .ok store) =>
      some { n with logs := { db := db }, snaps := { store := store }, writes := []
                    earlier := [], log := n.log.take (n.durable κ)
                    told := store.data.covered }

/-- One step; `none` when the event cannot happen in this state. -/
def step (n : Node) : NodeEvent → Option Node
  | .commit entry =>
      if entry.logId.index = n.committed.length then
        some { n with committed := n.committed ++ [entry] }
      else none
  | .append es =>
      if es.map (·.logId.index) = List.range' n.log.length es.length then some (n.append κ es)
      else none
  | .flush => n.flush
  | .truncate index =>
      -- Raft does not truncate what is committed.
      if n.logs.jobs = [] ∧ n.logs.flusher = .idle ∧ n.known ≤ index then
        some { n.writeNow (n.logs.truncate index).db with
                logs := n.logs.truncate index, log := n.log.take index
                acked := min n.acked index }
      else none
  | .purge upto =>
      if n.logs.jobs = [] ∧ n.logs.flusher = .idle ∧ n.writes = [] ∧ upto.index < n.base κ then
        match purgeWrites κ.logId n.logs.db upto with
        | .error _ => none
        | .ok writes =>
            let pending := n.logs.pending.splitOff (wrapSucc upto.index)
            some { n with logs := { n.logs with pending := pending }, writes := writes }
      else none
  | .purgeWrite =>
      match n.writes with
      | [] => none
      | w :: rest => some { n.writeNow (n.logs.db.write w) with writes := rest }
  | .saveVote vote => some { n.writeNow (n.logs.db.saveVote vote) with vote := some vote }
  | .saveCommitted upto =>
      -- The pointer follows the log that is on disk, and Raft's logs agree up to it.
      if n.told ≤ upto ∧ upto ≤ n.durable κ ∧ upto ≤ n.committed.length ∧
          n.log.take upto = n.committed.take upto then
        let committed := (n.log.take upto).getLast?.map (·.logId)
        some { n.writeLater (n.logs.db.saveCommitted (κ.committed.enc committed)) with
                told := upto, known := max n.known upto }
      else none
  | .apply count =>
      let data := n.snaps.store.data
      if data.covered + count ≤ n.told then
        n.own κ (.apply ((n.committed.drop data.covered).take count))
      else none
  | .cloneState => n.own κ .cloneState
  | .persistBuild => (n.own κ (.persistBuild true)).map fun n' => { n' with earlier := [] }
  | .receive upto snapshotId =>
      if upto ≤ n.committed.length then
        n.own κ (.receive (snapshotOf κ n.committed upto snapshotId))
      else none
  | .persistInstall => n.persistInstall κ
  | .replaceState => n.own κ .replaceState
  | .crash db => if db ∈ n.logs.db :: n.earlier then n.crash κ reapply db else none

def run (n : Node) (evs : List NodeEvent) : Option Node := Machine.run (step κ reapply) n evs

/-- No build that was overtaken by an install is persisted in the run. -/
def NeverOvertaken (n : Node) (evs : List NodeEvent) : Prop :=
  Machine.Along (step κ reapply)
    (fun n e _ => e = .persistBuild → n.snaps.overtaken = false) n evs

end Node

end HermesMq
