import HermesMq.LogDurability
import HermesMq.NodeSystem
import Mathlib.Data.List.Zip

/-!
# What a node keeps

The three parts of a node, each as the steps of the others see it: the log
store holds the log of the node (`LogsOk`), the state machine and its
snapshots are of the committed log (`SnapsOk`), and the disk may have lost
nothing but the committed pointer (`DiskOk`).
-/

namespace HermesMq

open Journal (numbered durable durable_nil base_le_durable le_durable)

/-! ## Prefixes of the log -/

theorem Indexed.take {log : List Entry} (h : Indexed log) (n : Nat) : Indexed (log.take n) := by
  intro k e hget
  rw [List.getElem?_take] at hget
  split_ifs at hget
  exact h k e hget

theorem Indexed.append {log es : List Entry} (h : Indexed log)
    (hes : es.map (·.logId.index) = List.range' log.length es.length) : Indexed (log ++ es) := by
  intro k e hget
  by_cases hlt : k < log.length
  · rw [List.getElem?_append_left hlt] at hget
    exact h k e hget
  · rw [List.getElem?_append_right (Nat.not_lt.mp hlt)] at hget
    have hindex := congrArg (·[k - log.length]?) hes
    simp only [List.getElem?_map, hget, Option.map_some] at hindex
    rw [List.getElem?_range' (List.getElem?_eq_some_iff.mp hget).1] at hindex
    have := Option.some.inj hindex
    omega

/-- The bytes of an append are numbered on from the end of the log. -/
theorem encodeEntries_eq_numbered (codec : Codec Entry) {es : List Entry} {k : Nat}
    (hes : es.map (·.logId.index) = List.range' k es.length) :
    LogStore.encodeEntries codec es = numbered k (es.map codec.enc) := by
  have hzip : LogStore.encodeEntries codec es =
      (es.map (·.logId.index)).zip (es.map codec.enc) :=
    (List.zip_map' ..).symm
  rw [hzip, hes, numbered, List.zipIdx_eq_zip_range', List.length_map, List.zip_swap]

/-! ## The log store -/

variable {κ : NodeCodecs}

/-- The log store holds the log of the node, and its callbacks report no more
than the disk will have. -/
structure LogsOk (κ : NodeCodecs) (log : List Entry) (base acked : Nat) (s : LogStore) : Prop where
  journal : Journal (log.map κ.entry.enc) base s.db.log s.queue
  acked_le : acked ≤ durable (log.map κ.entry.enc) base s.queue
  callbacks_le : ∀ c ∈ s.flusher.batch.callbacks ++ s.jobs.flatMap FlushJob.callbacks,
    c ≤ log.length
  batch_first : ∀ c ∈ s.flusher.batch.callbacks, ∀ p ∈ s.jobs.flatMap FlushJob.entries, c ≤ p.1
  jobs_first : s.jobs.Pairwise fun job later =>
    ∀ c ∈ job.callbacks, ∀ p ∈ later.entries, c ≤ p.1

theorem foldl_max_le {l : List Nat} {a b : Nat} (ha : a ≤ b) (hl : ∀ c ∈ l, c ≤ b) :
    l.foldl max a ≤ b := by
  induction l generalizing a with
  | nil => exact ha
  | cons c rest ih =>
      rw [List.forall_mem_cons] at hl
      exact ih (max_le ha hl.1) hl.2

theorem le_foldl_max {l : List Nat} {a : Nat} : a ≤ l.foldl max a := by
  induction l generalizing a with
  | nil => exact le_rfl
  | cons c rest ih => exact (le_max_left a c).trans ih

namespace LogsOk

variable {log : List Entry} {base acked : Nat} {s s' : LogStore}

theorem append (h : LogsOk κ log base acked s) {es : List Entry}
    (hes : es.map (·.logId.index) = List.range' log.length es.length) :
    LogsOk κ (log ++ es) base acked
      ((s.insertPending (LogStore.encodeEntries κ.entry es)).send
        (.append (LogStore.encodeEntries κ.entry es) (some (log.length + es.length)))) := by
  set batch := LogStore.encodeEntries κ.entry es
  set s' := (s.insertPending batch).send (.append batch (some (log.length + es.length)))
  have hbatch : batch = numbered (log.map κ.entry.enc).length (es.map κ.entry.enc) := by
    rw [List.length_map]
    exact encodeEntries_eq_numbered κ.entry hes
  have hqueue : s'.queue = s.queue ++ batch := by
    simp [s', LogStore.queue, LogStore.send, LogStore.insertPending, FlushJob.entries]
  have hlater : ∀ c ≤ log.length, ∀ p ∈ batch, c ≤ p.1 := by
    intro c hc p hp
    rw [hbatch] at hp
    refine hc.trans ?_
    simpa using (Journal.mem_numbered.mp hp).1
  refine ⟨?_, ?_, ?_, ?_, ?_⟩
  · rw [hqueue, hbatch, List.map_append]
    exact h.journal.append _
  · rw [hqueue, hbatch, List.map_append]
    exact h.acked_le.trans (Journal.durable_append _)
  · intro c hc
    have hold : c ∈ s.flusher.batch.callbacks ++ s.jobs.flatMap FlushJob.callbacks ∨
        c = log.length + es.length := by
      simpa [s', LogStore.send, LogStore.insertPending, FlushJob.callbacks, or_assoc] using hc
    rw [List.length_append]
    rcases hold with hold | rfl
    · exact (h.callbacks_le c hold).trans (Nat.le_add_right ..)
    · exact le_rfl
  · intro c hc p hp
    have hold : p ∈ s.jobs.flatMap FlushJob.entries ∨ p ∈ batch := by
      simpa [s', LogStore.send, LogStore.insertPending, FlushJob.entries] using hp
    rcases hold with hold | hnew
    · exact h.batch_first c hc p hold
    · exact hlater c (h.callbacks_le c (List.mem_append_left _ hc)) p hnew
  · refine List.pairwise_append.mpr ⟨h.jobs_first, List.pairwise_singleton .., ?_⟩
    intro job hjob later hlater' c hc p hp
    rw [List.mem_singleton.mp hlater'] at hp
    refine hlater c (h.callbacks_le c (List.mem_append_right _ ?_)) p hp
    exact List.mem_flatMap.mpr ⟨job, hjob, hc⟩

/-- The flusher takes the next job. -/
theorem receive (h : LogsOk κ log base acked s) {batch : FlushBatch} {job : FlushJob}
    {rest : List FlushJob} (hjobs : s.jobs = job :: rest)
    (hwrite : s.flusher.toWrite = batch.entries)
    (hcallbacks : s.flusher.batch.callbacks = batch.callbacks) :
    LogsOk κ log base acked { s with jobs := rest, flusher := batch.receive job } := by
  have hqueue : LogStore.queue { s with jobs := rest, flusher := batch.receive job } =
      s.queue := by
    simp [LogStore.queue, Flusher.receive_toWrite, hjobs, hwrite]
  have hfirst := h.batch_first
  have hle := h.callbacks_le
  have hpairs := h.jobs_first
  rw [hjobs, hcallbacks] at hfirst hle
  rw [hjobs, List.pairwise_cons] at hpairs
  refine ⟨hqueue ▸ h.journal, hqueue ▸ h.acked_le, ?_, ?_, hpairs.2⟩
  · rw [Flusher.receive_callbacks, List.append_assoc]
    exact hle
  · rw [Flusher.receive_callbacks]
    intro c hc p hp
    rcases List.mem_append.mp hc with hc | hc
    · exact hfirst c hc p (by simp [hp])
    · obtain ⟨later, hlater, hp⟩ := List.mem_flatMap.mp hp
      exact hpairs.1 later hlater c hc p hp

/-- The flusher ends its round with nothing left of its batch to write. -/
theorem complete (h : LogsOk κ log base acked s) {batch : FlushBatch}
    (hbatch : s.flusher.batch = batch) (hwrite : s.flusher.toWrite = [])
    (pending : OrdMap Nat Bytes) :
    LogsOk κ log base (batch.callbacks.foldl max acked)
      ({ s with pending := pending }.complete batch true) := by
  have hqueue : LogStore.queue ({ s with pending := pending }.complete batch true) = s.queue := by
    rw [LogStore.queue, LogStore.queue, hwrite]
    rfl
  have hjobs : s.queue = s.jobs.flatMap FlushJob.entries := by
    rw [LogStore.queue, hwrite, List.nil_append]
  refine ⟨hqueue ▸ h.journal, ?_, ?_, ?_, h.jobs_first⟩
  · rw [hqueue]
    refine foldl_max_le h.acked_le fun c hc => le_durable ?_ ?_
    · rw [List.length_map]
      exact h.callbacks_le c (List.mem_append_left _ (hbatch ▸ hc))
    · rw [hjobs]
      exact h.batch_first c (hbatch ▸ hc)
  · intro c hc
    exact h.callbacks_le c (List.mem_append_right _ hc)
  · intro c hc
    cases hc

/-- The flusher stops looking for jobs. -/
theorem of_same (h : LogsOk κ log base acked s) {flusher : Flusher}
    (hwrite : flusher.toWrite = s.flusher.toWrite)
    (hcallbacks : flusher.batch.callbacks = s.flusher.batch.callbacks) :
    LogsOk κ log base acked { s with flusher := flusher } := by
  have hqueue : LogStore.queue { s with flusher := flusher } = s.queue := by
    rw [LogStore.queue, LogStore.queue, hwrite]
  refine ⟨hqueue ▸ h.journal, hqueue ▸ h.acked_le, ?_, ?_, h.jobs_first⟩
  · rw [hcallbacks]
    exact h.callbacks_le
  · rw [hcallbacks]
    exact h.batch_first

theorem write (h : LogsOk κ log base acked s) {batch : FlushBatch}
    (hf : s.flusher = .ready batch) :
    LogsOk κ log base acked
      { s with db := s.db.appendLog batch.entries, flusher := .written batch } := by
  have hqueue : s.queue = batch.entries ++ s.jobs.flatMap FlushJob.entries := by
    rw [LogStore.queue, hf]
    rfl
  have hjournal := h.journal
  have hacked := h.acked_le
  have hle := h.callbacks_le
  have hfirst := h.batch_first
  rw [hqueue] at hjournal hacked
  rw [hf] at hle hfirst
  exact ⟨hjournal.write, hacked.trans hjournal.durable_write, hle, hfirst, h.jobs_first⟩

theorem flushStep (h : LogsOk κ log base acked s) (hstep : s.flushStep true = some s') :
    LogsOk κ log base (s.finishing.foldl max acked) s' := by
  unfold LogStore.finishing
  unfold LogStore.flushStep at hstep
  cases hf : s.flusher with
  | idle =>
      cases hjobs : s.jobs with
      | nil =>
          rw [hf, hjobs] at hstep
          cases hstep
      | cons job rest =>
          rw [hf, hjobs] at hstep
          cases hstep
          exact h.receive hjobs (by rw [hf]; rfl) (by rw [hf]; rfl)
  | collecting batch =>
      cases hjobs : s.jobs with
      | nil =>
          rw [hf, hjobs] at hstep
          cases hstep
          have hready : LogsOk κ log base acked { s with flusher := .ready batch } :=
            h.of_same (by rw [hf]; rfl) (by rw [hf]; rfl)
          rw [hjobs] at hready
          exact hready
      | cons job rest =>
          rw [hf, hjobs] at hstep
          cases hstep
          exact h.receive hjobs (by rw [hf]; rfl) (by rw [hf]; rfl)
  | ready batch =>
      simp only [hf, if_true] at hstep
      split_ifs at hstep with hempty
      · cases hstep
        simp only [hempty, if_true]
        exact h.complete (by rw [hf]; rfl) (by rw [hf]; exact hempty) s.pending
      · cases hstep
        simp only [hempty, if_false, List.foldl_nil]
        exact h.write hf
  | written batch =>
      simp only [hf] at hstep
      cases hstep
      exact h.complete (by rw [hf]; rfl) (by rw [hf]; rfl) _

/-- A step of the flusher writes entries or leaves the database alone. -/
theorem flushStep_db (hstep : s.flushStep true = some s') :
    s'.db.records = s.db.records ∧ (s.writing = false → s'.db = s.db) := by
  unfold LogStore.writing
  unfold LogStore.flushStep at hstep
  cases hf : s.flusher with
  | idle | collecting =>
      rw [hf] at hstep
      cases hjobs : s.jobs <;> rw [hjobs] at hstep <;> cases hstep <;> exact ⟨rfl, fun _ => rfl⟩
  | ready batch =>
      simp only [hf, if_true] at hstep
      split_ifs at hstep with hempty
      · cases hstep
        exact ⟨rfl, fun _ => rfl⟩
      · cases hstep
        exact ⟨rfl, fun hidle => absurd hempty (by simpa using hidle)⟩
  | written batch =>
      simp only [hf] at hstep
      cases hstep
      exact ⟨rfl, fun _ => rfl⟩

theorem truncate (h : LogsOk κ log base acked s) (hjobs : s.jobs = [])
    (hf : s.flusher = .idle) {n : Nat} (hn : base ≤ n) :
    LogsOk κ (log.take n) base (min acked n) (s.truncate n) := by
  have hnil : s.queue = [] := by
    rw [LogStore.queue, hjobs, hf]
    rfl
  have hjournal := h.journal
  have hacked := h.acked_le
  rw [hnil] at hjournal hacked
  have hafter : (s.truncate n).queue = [] := hnil
  refine ⟨?_, ?_, fun c hc => ?_, fun c hc => ?_, ?_⟩
  · rw [hafter, List.map_take]
    exact hjournal.truncate hn
  · rw [durable_nil hjournal.base_le, List.length_map] at hacked
    rw [hafter, List.map_take, durable_nil (hjournal.truncate hn).base_le, List.length_take,
      List.length_map, Nat.min_comm acked]
    exact min_le_min_left _ hacked
  · simp [LogStore.truncate, hf, hjobs, Flusher.batch] at hc
  · simp [LogStore.truncate, hf, Flusher.batch] at hc
  · exact h.jobs_first

theorem purge (h : LogsOk κ log base acked s) {k : Nat} (hk : k < base) :
    LogsOk κ log base acked { s with db := s.db.purgeLogUpto k } :=
  { h with journal := h.journal.purge hk }

/-- A newer snapshot covers more of the log. -/
theorem rebase (h : LogsOk κ log base acked s) {b : Nat} (hb : base ≤ b) (hlen : b ≤ log.length) :
    LogsOk κ log b acked s :=
  { h with journal := h.journal.rebase hb (by rwa [List.length_map])
           acked_le := h.acked_le.trans (Journal.durable_rebase hb) }

/-- A snapshot covers all of a longer log. -/
theorem replace (h : LogsOk κ log base acked s) {log' : List Entry}
    (hlen : log.length ≤ log'.length) : LogsOk κ log' log'.length acked s := by
  have hmap : (log.map κ.entry.enc).length ≤ (log'.map κ.entry.enc).length := by
    simpa only [List.length_map] using hlen
  have hjournal := h.journal.replace hmap
  rw [List.length_map] at hjournal
  refine { h with journal := hjournal, acked_le := ?_, callbacks_le := ?_ }
  · refine (h.acked_le.trans (h.journal.durable_le.trans ?_)).trans base_le_durable
    rwa [List.length_map]
  · exact fun c hc => (h.callbacks_le c hc).trans hlen

theorem crash (h : LogsOk κ log base acked s) {db : Storage} (hdb : db.log = s.db.log) :
    LogsOk κ (log.take (durable (log.map κ.entry.enc) base s.queue)) base acked { db := db } := by
  have hjournal := h.journal.crash
  rw [← hdb] at hjournal
  refine ⟨?_, ?_, fun c hc => (by cases hc), fun c hc => (by cases hc), List.Pairwise.nil⟩
  · rw [List.map_take]
    exact hjournal
  · rw [List.map_take]
    refine h.acked_le.trans (le_of_eq ?_)
    rw [show LogStore.queue { db := db } = [] from rfl, durable_nil hjournal.base_le,
      List.length_take, Nat.min_eq_left h.journal.durable_le]

end LogsOk

/-! ## The snapshots -/

theorem persisted_congr {s s' : SnapshotSystem}
    (h : s'.store.db.get keySnapshot = s.store.db.get keySnapshot) :
    s'.persisted κ.stored = s.persisted κ.stored := by
  rw [SnapshotSystem.persisted, SnapshotSystem.persisted, snapshotLastIndex, snapshotLastIndex, h]

/-- The state machine and its snapshots are of the committed log, up to what
the process has been told. -/
structure SnapsOk (κ : NodeCodecs) (committed : List Entry) (told : Nat) (s : SnapshotSystem) :
    Prop where
  node : NodeInv κ.postcard κ.decV0 κ.stored committed s
  snaps : SnapshotInv κ.postcard κ.decV0 κ.stored s
  applied : s.store.data.covered ≤ told
  base_le : s.persisted κ.stored ≤ told

namespace SnapsOk

variable {committed : List Entry} {told : Nat} {s s' : SnapshotSystem}

/-- Only the record of the snapshot matters. -/
theorem setDb (h : SnapsOk κ committed told s) {db : Storage}
    (hget : db.get keySnapshot = s.store.db.get keySnapshot) :
    SnapsOk κ committed told { s with store := { s.store with db := db } } := by
  set s' : SnapshotSystem := { s with store := { s.store with db := db } }
  have hbase : s'.persisted κ.stored = s.persisted κ.stored := persisted_congr hget
  refine ⟨{ h.node with record := fun bytes hb => h.node.record bytes (hget ▸ hb) },
    { h.snaps with
      record := fun bytes hb => h.snaps.record bytes (hget ▸ hb)
      fresh := fun stored hb hover => ?_
      stale := fun stored hb hover => ?_
      ahead_le := ?_
      le_max := ?_
      installed_le := fun stored hmem => ?_ }, h.applied, ?_⟩
  · rw [hbase]
    exact h.snaps.fresh stored hb hover
  · rw [hbase]
    exact h.snaps.stale stored hb hover
  · rw [hbase]
    exact h.snaps.ahead_le
  · rw [hbase]
    exact h.snaps.le_max
  · rw [hbase]
    exact h.snaps.installed_le stored hmem
  · rw [hbase]
    exact h.base_le

theorem mono (h : SnapsOk κ committed told s) {told' : Nat} (hle : told ≤ told') :
    SnapsOk κ committed told' s :=
  { h with applied := h.applied.trans hle, base_le := h.base_le.trans hle }

theorem commit (h : SnapsOk κ committed told s) (entry : Entry) :
    SnapsOk κ (committed ++ [entry]) told s :=
  { h with node := h.node.append [entry] }

theorem apply (h : SnapsOk κ committed told s) (hlog : Indexed committed)
    (htold : told ≤ committed.length) {count : Nat} (hcount : s.store.data.covered + count ≤ told)
    (hstep : s.step κ.postcard κ.decV0 κ.stored
      (.apply ((committed.drop s.store.data.covered).take count)) = some s') :
    SnapsOk κ committed told s' ∧ s'.store.db = s.store.db := by
  have hnode := h.node.step hlog hstep (fun entries he => ⟨count, by cases he; rfl⟩)
    (fun stored he => by cases he)
  have hsnaps := (SnapshotSystem.step_ok h.snaps hstep trivial fun he => by cases he).1
  have hs' := (Option.ite_none_right_eq_some.mp hstep).2
  cases hs'
  refine ⟨⟨hnode, hsnaps, ?_, h.base_le⟩, rfl⟩
  obtain ⟨k, hk, hdata⟩ := h.node.data
  have hcovered := covered_replay hlog hk
  rw [hdata, hcovered] at hcount
  show (s.store.data.apply _).1.covered ≤ told
  rw [hdata, hcovered, apply_replay, covered_replay hlog (hcount.trans htold)]
  exact hcount

/-- What a step of the snapshots keeps, whatever the process was told. -/
theorem own (h : SnapsOk κ committed told s) (hlog : Indexed committed) {event : SnapshotEvent}
    (hown : event.isOwn = true)
    (hstep : s.step κ.postcard κ.decV0 κ.stored event = some s')
    (hsafe : event = .persistBuild true → s.overtaken = false) :
    NodeInv κ.postcard κ.decV0 κ.stored committed s' ∧
      SnapshotInv κ.postcard κ.decV0 κ.stored s' ∧
      s.persisted κ.stored ≤ s'.persisted κ.stored :=
  ⟨h.node.step hlog hstep (fun _ he => by cases he; cases hown) (fun _ he => by cases he; cases hown),
    SnapshotSystem.step_ok h.snaps hstep (by cases event <;> trivial) hsafe⟩

theorem cloneState (h : SnapsOk κ committed told s) (hlog : Indexed committed)
    (hstep : s.step κ.postcard κ.decV0 κ.stored .cloneState = some s') :
    SnapsOk κ committed told s' ∧ s'.store.db = s.store.db := by
  obtain ⟨hnode, hsnaps, -⟩ := h.own hlog rfl hstep fun he => by cases he
  have hs' := (Option.ite_none_right_eq_some.mp hstep).2
  cases hs'
  exact ⟨⟨hnode, hsnaps, h.applied, h.base_le⟩, rfl⟩

theorem receive (h : SnapsOk κ committed told s) (hlog : Indexed committed) {upto : Nat}
    (hupto : upto ≤ committed.length) {snapshotId : String}
    (hstep : s.step κ.postcard κ.decV0 κ.stored
      (.receive (Node.snapshotOf κ committed upto snapshotId)) = some s') :
    SnapsOk κ committed told s' ∧ s'.store.db = s.store.db := by
  have hvouched : Vouched κ.postcard κ.decV0 committed
      (Node.snapshotOf κ committed upto snapshotId) :=
    ⟨upto, hupto, decodeState_replay κ.postcard κ.decV0 committed upto⟩
  have hnode := h.node.step hlog hstep (fun entries he => by cases he)
    (fun stored he => by cases he; exact hvouched)
  have hfaithful : Faithful κ.postcard κ.decV0 (Node.snapshotOf κ committed upto snapshotId) := by
    intro data hdata
    rw [((decodeState_replay κ.postcard κ.decV0 committed upto data).mp hdata).1]
    rfl
  have hsnaps := (SnapshotSystem.step_ok h.snaps hstep hfaithful fun he => by cases he).1
  have hs' := (Option.ite_none_right_eq_some.mp hstep).2
  split at hs'
  · cases hs'
    exact ⟨⟨hnode, hsnaps, h.applied, h.base_le⟩, rfl⟩
  · cases hs'
    exact ⟨⟨hnode, hsnaps, h.applied, h.base_le⟩, rfl⟩

theorem replaceState (h : SnapsOk κ committed told s) (hlog : Indexed committed)
    (hstep : s.step κ.postcard κ.decV0 κ.stored .replaceState = some s') :
    SnapsOk κ committed told s' ∧ s'.store.db = s.store.db := by
  obtain ⟨hnode, hsnaps, -⟩ := h.own hlog rfl hstep fun he => by cases he
  simp only [SnapshotSystem.step] at hstep
  cases hi : s.install with
  | none | decoded =>
      rw [hi] at hstep
      cases hstep
  | persisted stored data =>
      simp only [hi] at hstep
      split_ifs at hstep
      cases hstep
      refine ⟨⟨hnode, hsnaps, ?_, h.base_le⟩, rfl⟩
      have hahead := h.snaps.ahead_le
      rw [hi] at hahead
      show data.covered ≤ told
      rw [(h.snaps.install_faithful stored data (Or.inr hi)).2]
      exact hahead.trans h.base_le

theorem persistBuild (h : SnapsOk κ committed told s) (hlog : Indexed committed)
    (hsafe : s.overtaken = false)
    (hstep : s.step κ.postcard κ.decV0 κ.stored (.persistBuild true) = some s') :
    SnapsOk κ committed told s' ∧ s.persisted κ.stored ≤ s'.persisted κ.stored ∧
      ∃ stored, s'.store.db = persistSnapshot κ.stored s.store.db stored := by
  obtain ⟨hnode, hsnaps, hforth⟩ := h.own hlog rfl hstep fun _ => hsafe
  simp only [SnapshotSystem.step] at hstep
  cases hb : s.build with
  | none =>
      rw [hb] at hstep
      cases hstep
  | some stored =>
      rw [hb] at hstep
      cases hstep
      obtain ⟨hfaithful, hle⟩ := h.snaps.build_faithful stored hb
      refine ⟨⟨hnode, hsnaps, h.applied, ?_⟩, hforth, stored, rfl⟩
      rw [(record_persisted _ hfaithful rfl).2]
      exact hle.trans h.applied

theorem persistInstall (h : SnapsOk κ committed told s) (hlog : Indexed committed)
    {stored : StoredSnapshot} {data : StateMachineData} (hi : s.install = .decoded stored data)
    (hstep : s.step κ.postcard κ.decV0 κ.stored (.persistInstall true) = some s') :
    SnapsOk κ committed stored.covered s' ∧ s'.persisted κ.stored = stored.covered ∧
      stored.covered ≤ committed.length ∧
      s'.store.db = persistSnapshot κ.stored s.store.db stored := by
  obtain ⟨hnode, hsnaps, -⟩ := h.own hlog rfl hstep fun he => by cases he
  obtain ⟨hfaithful, hcovered⟩ := h.snaps.install_faithful stored data (Or.inl hi)
  obtain ⟨k, hk, hdata⟩ := (h.node.install stored data (Or.inl hi)).2
  simp only [SnapshotSystem.step, hi, if_true] at hstep
  split_ifs at hstep with hnewer
  cases hstep
  refine ⟨⟨hnode, hsnaps, hnewer, (record_persisted _ hfaithful rfl).2.le⟩,
    (record_persisted _ hfaithful rfl).2, ?_, rfl⟩
  rw [← hcovered, hdata, covered_replay hlog hk]
  exact hk

end SnapsOk

/-! ## The disk -/

/-- The database, and what else the disk may have. -/
structure DiskOk (κ : NodeCodecs) (base told known : Nat) (vote : Option Bytes)
    (writes : List Storage.Write) (db : Storage) (earlier : List Storage) : Prop where
  vote : db.readVote = vote
  pointer : ∀ d ∈ db :: earlier, ∃ c, LogStore.storedCommitted κ.committed d = .ok c ∧
    ∀ id, c = some id → id.index < known
  /-- The database itself has all that the process was told. -/
  current : ∀ c, LogStore.storedCommitted κ.committed db = .ok c →
    covered (c.map (·.index)) ≤ told ∧ told ≤ max base (covered (c.map (·.index)))
  same : ∀ d ∈ earlier, d.log = db.log ∧ ∀ key, key ≠ keyCommitted → d.get key = db.get key
  writes : ∀ w ∈ writes, (∃ v, w = .put keyPurged v) ∨ ∃ k < base, w = .purgeLogUpto k

theorem storedCommitted_congr {d d' : Storage} (h : d'.readCommitted = d.readCommitted) :
    LogStore.storedCommitted κ.committed d' = LogStore.storedCommitted κ.committed d := by
  rw [LogStore.storedCommitted, LogStore.storedCommitted, h]

namespace DiskOk

variable {base told known : Nat} {vote : Option Bytes} {writes : List Storage.Write}
  {db db' : Storage} {earlier : List Storage}

/-- A write that waits, of something else than the committed pointer. -/
theorem writeNow (h : DiskOk κ base told known vote writes db earlier)
    (hcommitted : db'.readCommitted = db.readCommitted) {vote' : Option Bytes}
    (hvote : db'.readVote = vote') {base' : Nat} (hbase : base ≤ base')
    {writes' : List Storage.Write} (hwrites : writes' ⊆ writes) :
    DiskOk κ base' told known vote' writes' db' [] where
  vote := hvote
  pointer d hd := by
    rw [List.mem_singleton.mp hd, storedCommitted_congr hcommitted]
    exact h.pointer db List.mem_cons_self
  current c hc := by
    rw [storedCommitted_congr hcommitted] at hc
    exact (h.current c hc).imp_right (·.trans (max_le_max hbase le_rfl))
  same d hd := absurd hd List.not_mem_nil
  writes w hw := (h.writes w (hwrites hw)).imp_right fun ⟨k, hk, heq⟩ =>
    ⟨k, hk.trans_le hbase, heq⟩

theorem saveCommitted (h : DiskOk κ base told known vote writes db earlier) {upto : Nat}
    {c : Option LogId} (hc : covered (c.map (·.index)) = upto) :
    DiskOk κ base upto (max known upto) vote writes (db.saveCommitted (κ.committed.enc c))
      (db :: earlier) := by
  have hstored : LogStore.storedCommitted κ.committed
      (db.saveCommitted (κ.committed.enc c)) = .ok c := by
    rw [LogStore.storedCommitted, Storage.readCommitted, Storage.saveCommitted, Storage.get_put,
      if_pos rfl]
    exact κ.committed.dec_enc c
  have hother : ∀ key, key ≠ keyCommitted →
      (db.saveCommitted (κ.committed.enc c)).get key = db.get key := fun key hkey => by
    rw [Storage.saveCommitted, Storage.get_put, if_neg hkey]
  refine ⟨(hother keyVote (by decide)).trans h.vote, fun d hd => ?_, fun c' hc' => ?_,
    fun d hd => ?_, h.writes⟩
  · rcases List.mem_cons.mp hd with rfl | hd
    · refine ⟨c, hstored, fun id hid => lt_max_of_lt_right ?_⟩
      rw [← hc, hid]
      exact Nat.lt_succ_self _
    · obtain ⟨c', hc', hlt⟩ := h.pointer d hd
      exact ⟨c', hc', fun id hid => lt_max_of_lt_left (hlt id hid)⟩
  · rw [hstored] at hc'
    rw [← Except.ok.inj hc', hc]
    exact ⟨le_rfl, le_max_right ..⟩
  · rcases List.mem_cons.mp hd with rfl | hd
    · exact ⟨rfl, fun key hkey => (hother key hkey).symm⟩
    · exact ⟨(h.same d hd).1, fun key hkey =>
        ((h.same d hd).2 key hkey).trans (hother key hkey).symm⟩

theorem learn (h : DiskOk κ base told known vote writes db earlier) {told' known' : Nat}
    (hknown : known ≤ known') (hle : told ≤ told') (htold : told' ≤ told ∨ told' ≤ base) :
    DiskOk κ base told' known' vote writes db earlier :=
  { h with
    pointer := fun d hd => by
      obtain ⟨c, hc, hlt⟩ := h.pointer d hd
      exact ⟨c, hc, fun id hid => (hlt id hid).trans_le hknown⟩
    current := fun c hc => ⟨(h.current c hc).1.trans hle,
      htold.elim (·.trans (h.current c hc).2) le_max_of_le_left⟩ }

/-- Any state that the disk may have, but for the pointer. -/
theorem same_of_mem (h : DiskOk κ base told known vote writes db earlier) {d : Storage}
    (hd : d ∈ db :: earlier) :
    d.log = db.log ∧ ∀ key, key ≠ keyCommitted → d.get key = db.get key := by
  rcases List.mem_cons.mp hd with rfl | hd
  · exact ⟨rfl, fun _ _ => rfl⟩
  · exact h.same d hd

end DiskOk

end HermesMq
