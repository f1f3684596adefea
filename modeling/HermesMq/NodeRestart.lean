import HermesMq.NodeInvariant
import HermesMq.Recovery

/-!
# Restarting a node

Whatever a node was doing when its process stopped, and whichever of the
writes that do not wait the disk has lost, the node starts again without
repair, with the state of a committed prefix of the log, and with all of the
log that it has reported to be on disk or knew to be committed
(`restart_recovers`).
-/

namespace HermesMq

open Journal (durable base_le_durable)

variable {κ : NodeCodecs}

/-! ## The node -/

structure NodeOk (κ : NodeCodecs) (n : Node) : Prop where
  committed : Indexed n.committed
  room : n.committed.length ≤ u64Max
  log : Indexed n.log
  agree : n.log.take n.known = n.committed.take n.known
  known_le : n.known ≤ n.committed.length
  told_le : n.told ≤ n.known
  shared : n.snaps.store.db = n.logs.db
  logs : LogsOk κ n.log (n.base κ) n.acked n.logs
  durable : n.known ≤ n.durable κ
  snaps : SnapsOk κ n.committed n.told n.snaps
  disk : DiskOk κ (n.base κ) n.told n.known n.vote n.writes n.logs.db n.earlier

namespace NodeOk

variable {n n' : Node}

theorem base_congr {n n' : Node}
    (h : n'.snaps.store.db.get keySnapshot = n.snaps.store.db.get keySnapshot) :
    n'.base κ = n.base κ :=
  persisted_congr h

theorem known_le_log (h : NodeOk κ n) : n.known ≤ n.log.length := by
  have hle := h.durable.trans h.logs.journal.durable_le
  rwa [List.length_map] at hle

/-- What is known to be committed is reported to be on disk, as it were. -/
theorem logsKnown (h : NodeOk κ n) : LogsOk κ n.log (n.base κ) n.known n.logs :=
  { h.logs with acked_le := h.durable }

theorem base_le (h : NodeOk κ n) : n.base κ ≤ n.known := h.snaps.base_le.trans h.told_le

theorem commit (h : NodeOk κ n) {entry : Entry} (he : entry.logId.index = n.committed.length)
    (hlt : entry.logId.index < u64Max) :
    NodeOk κ { n with committed := n.committed ++ [entry] } :=
  { h with
    committed := h.committed.append (by simp [he])
    room := by
      rw [List.length_append]
      exact he ▸ hlt
    agree := h.agree.trans (List.take_append_of_le_length h.known_le).symm
    known_le := h.known_le.trans (by simp)
    snaps := h.snaps.commit entry }

theorem append (h : NodeOk κ n) {es : List Entry}
    (hes : es.map (·.logId.index) = List.range' n.log.length es.length) :
    NodeOk κ (n.append κ es) := by
  have hlogs := h.logs.append hes
  refine { h with log := h.log.append hes, logs := hlogs, agree := ?_, durable := ?_ }
  · exact (List.take_append_of_le_length h.known_le_log).trans h.agree
  · exact (h.logsKnown.append hes).acked_le

/-- A write that waits, of neither the snapshot nor the committed pointer. -/
theorem write (h : NodeOk κ n) {logs : LogStore} {log : List Entry} {acked : Nat}
    {vote : Option Bytes} {writes : List Storage.Write}
    (hget : logs.db.get keySnapshot = n.logs.db.get keySnapshot)
    (hcommitted : logs.db.readCommitted = n.logs.db.readCommitted)
    (hvote : logs.db.readVote = vote) (hwrites : writes ⊆ n.writes) (hlog : Indexed log)
    (hagree : log.take n.known = n.log.take n.known)
    (hlogs : LogsOk κ log (n.base κ) acked logs)
    (hdurable : n.known ≤ Journal.durable (log.map κ.entry.enc) (n.base κ) logs.queue) :
    NodeOk κ { n.writeNow logs.db with
      logs := logs, log := log, acked := acked, writes := writes, vote := vote } := by
  set n' : Node := { n.writeNow logs.db with
      logs := logs, log := log, acked := acked, writes := writes, vote := vote }
  have hbase : n'.base κ = n.base κ := base_congr (h.shared ▸ hget)
  refine { h with
    log := hlog
    agree := hagree.trans h.agree
    shared := rfl
    logs := by rw [hbase]; exact hlogs
    durable := by rw [Node.durable, hbase]; exact hdurable
    snaps := h.snaps.setDb (h.shared ▸ hget)
    disk := by rw [hbase]; exact h.disk.writeNow hcommitted hvote le_rfl hwrites }

theorem flush (h : NodeOk κ n) (hstep : n.flush = some n') : NodeOk κ n' := by
  obtain ⟨logs, hflush, hn'⟩ := Option.map_eq_some_iff.mp hstep
  obtain ⟨hrecords, hidle⟩ := LogsOk.flushStep_db hflush
  have hget : ∀ key, logs.db.get key = n.logs.db.get key := fun key => by
    rw [Storage.get, Storage.get, hrecords]
  have hlogs := h.logs.flushStep hflush
  have hdurable := le_foldl_max.trans (h.logsKnown.flushStep hflush).acked_le
  subst hn'
  simp only
  split_ifs with hwriting
  · exact h.write (hget _) (hget _) ((hget _).trans h.disk.vote) (List.Subset.refl _) h.log rfl
      hlogs hdurable
  · have hdb := hidle (by simpa using hwriting)
    exact { h with
      logs := hlogs
      durable := hdurable
      shared := h.shared.trans hdb.symm
      disk := by rw [hdb]; exact h.disk }

theorem truncate (h : NodeOk κ n) {index : Nat} (hjobs : n.logs.jobs = [])
    (hf : n.logs.flusher = .idle) (hindex : n.known ≤ index) :
    NodeOk κ { n.writeNow (n.logs.truncate index).db with
      logs := n.logs.truncate index, log := n.log.take index, acked := min n.acked index } := by
  have hbase := h.base_le.trans hindex
  have hdurable := (h.logsKnown.truncate hjobs hf hbase).acked_le
  rw [Nat.min_eq_left hindex] at hdurable
  refine h.write rfl rfl h.disk.vote (List.Subset.refl _) (h.log.take index) ?_
    (h.logs.truncate hjobs hf hbase) hdurable
  rw [List.take_take, Nat.min_eq_left hindex]

theorem saveVote (h : NodeOk κ n) (vote : Bytes) :
    NodeOk κ { n.writeNow (n.logs.db.saveVote vote) with vote := some vote } := by
  have hget : ∀ key, key ≠ keyVote →
      (n.logs.db.saveVote vote).get key = n.logs.db.get key := fun key hkey => by
    rw [Storage.saveVote, Storage.get_put, if_neg hkey]
  have hvote : (n.logs.db.saveVote vote).readVote = some vote := by
    rw [Storage.saveVote, Storage.readVote, Storage.get_put, if_pos rfl]
  exact h.write (hget _ (by decide)) (hget _ (by decide)) hvote (List.Subset.refl _) h.log rfl
    { h.logs with } h.durable

theorem purgeWrite (h : NodeOk κ n) {w : Storage.Write} {rest : List Storage.Write}
    (hw : n.writes = w :: rest) :
    NodeOk κ { n.writeNow (n.logs.db.write w) with writes := rest } := by
  have hrest : rest ⊆ n.writes := by
    rw [hw]
    exact List.subset_cons_self ..
  rcases h.disk.writes w (by rw [hw]; exact List.mem_cons_self) with ⟨v, rfl⟩ | ⟨k, hk, rfl⟩
  · have hget : ∀ key, key ≠ keyPurged →
        (n.logs.db.put keyPurged v).get key = n.logs.db.get key := fun key hkey => by
      rw [Storage.get_put, if_neg hkey]
    exact h.write (hget _ (by decide)) (hget _ (by decide)) ((hget _ (by decide)).trans h.disk.vote)
      hrest h.log rfl { h.logs with } h.durable
  · exact h.write rfl rfl h.disk.vote hrest h.log rfl (h.logs.purge hk) h.durable

theorem purge (h : NodeOk κ n) {upto : LogId} (hupto : upto.index < n.base κ)
    {writes : List Storage.Write} (hwrites : purgeWrites κ.logId n.logs.db upto = .ok writes)
    (pending : OrdMap Nat Bytes) :
    NodeOk κ { n with logs := { n.logs with pending := pending }, writes := writes } := by
  refine { h with logs := { h.logs with }, disk := { h.disk with writes := ?_ } }
  have hboth : writes = [] ∨
      writes = [.put keyPurged (κ.logId.enc upto), .purgeLogUpto upto.index] := by
    unfold purgeWrites at hwrites
    split at hwrites
    · exact Or.inr (Except.ok.inj hwrites).symm
    · simp only [bind, Except.bind] at hwrites
      split at hwrites
      · cases hwrites
      · split_ifs at hwrites
        · exact Or.inl (Except.ok.inj hwrites).symm
        · exact Or.inr (Except.ok.inj hwrites).symm
  rcases hboth with rfl | rfl
  · exact fun w hw => absurd hw List.not_mem_nil
  · rw [List.forall_mem_cons, List.forall_mem_singleton]
    exact ⟨Or.inl ⟨_, rfl⟩, Or.inr ⟨_, hupto, rfl⟩⟩

theorem saveCommitted (h : NodeOk κ n) {upto : Nat} (htold : n.told ≤ upto)
    (hdurable : upto ≤ n.durable κ) (hcommitted : upto ≤ n.committed.length)
    (hagree : n.log.take upto = n.committed.take upto) :
    NodeOk κ { n.writeLater (n.logs.db.saveCommitted
        (κ.committed.enc ((n.log.take upto).getLast?.map (·.logId)))) with
      told := upto, known := max n.known upto } := by
  set c := (n.log.take upto).getLast?.map (·.logId)
  set db := n.logs.db.saveCommitted (κ.committed.enc c)
  set n' : Node := { n.writeLater db with told := upto, known := max n.known upto }
  have hget : db.get keySnapshot = n.logs.db.get keySnapshot :=
    (Storage.get_put ..).trans (if_neg (by decide))
  have hbase : n'.base κ = n.base κ := base_congr (h.shared ▸ hget)
  have hlen : upto ≤ n.log.length := by
    have hle := hdurable.trans h.logs.journal.durable_le
    rwa [List.length_map] at hle
  have hcovered : covered (c.map (·.index)) = upto := by
    have hlast := lastApplied_apply {} (n.log.take upto)
    rw [Option.or_none] at hlast
    rw [← covered_replay h.log hlen, StateMachineData.covered, replay, hlast]
  refine { h with
    agree := ?_
    known_le := max_le h.known_le hcommitted
    told_le := le_max_right ..
    shared := rfl
    logs := by rw [hbase]; exact { h.logs with }
    durable := by rw [Node.durable, hbase]; exact max_le h.durable hdurable
    snaps := (h.snaps.mono htold).setDb (h.shared ▸ hget)
    disk := by rw [hbase]; exact h.disk.saveCommitted hcovered }
  rcases le_total n.known upto with hle | hle
  · rw [show n'.known = upto from max_eq_right hle]
    exact hagree
  · rw [show n'.known = n.known from max_eq_left hle]
    exact h.agree

/-- A step of the state machine that leaves the database alone. -/
theorem idle (h : NodeOk κ n) {snaps : SnapshotSystem}
    (hsnaps : SnapsOk κ n.committed n.told snaps ∧ snaps.store.db = n.snaps.store.db) :
    NodeOk κ (n.withSnaps snaps) := by
  obtain ⟨hsnaps, hdb⟩ := hsnaps
  have hbase : (n.withSnaps snaps).base κ = n.base κ := base_congr (by rw [← hdb]; rfl)
  have hlogs : (n.withSnaps snaps).logs = n.logs := by
    rw [Node.withSnaps, hdb, h.shared]
  exact { h with
    shared := rfl
    logs := by rw [hbase, hlogs]; exact h.logs
    durable := by rw [Node.durable, hbase, hlogs]; exact h.durable
    snaps := hsnaps
    disk := by rw [hbase, hlogs]; exact h.disk }

/-- Either writer's write of a snapshot. -/
theorem persist (h : NodeOk κ n) {snaps : SnapshotSystem} {stored : StoredSnapshot}
    {log : List Entry} {told known : Nat} (hsnaps : SnapsOk κ n.committed told snaps)
    (hdb : snaps.store.db = persistSnapshot κ.stored n.logs.db stored)
    (hbase : n.base κ ≤ snaps.persisted κ.stored) (hlog : Indexed log)
    (hagree : log.take known = n.committed.take known) (hknown : n.known ≤ known)
    (hle : known ≤ n.committed.length) (htold : told ≤ known) (hforth : n.told ≤ told)
    (hnew : told ≤ n.told ∨ told ≤ snaps.persisted κ.stored)
    (hlogs : LogsOk κ log (snaps.persisted κ.stored) n.acked n.logs)
    (hdurable : known ≤
      Journal.durable (log.map κ.entry.enc) (snaps.persisted κ.stored) n.logs.queue) :
    NodeOk κ { n.withSnaps snaps with earlier := [], told := told, known := known, log := log } := by
  have hget : ∀ key, key ≠ keySnapshot → snaps.store.db.get key = n.logs.db.get key :=
    fun key hkey => by rw [hdb, persistSnapshot, Storage.get_put, if_neg hkey]
  have hjournal : Journal (log.map κ.entry.enc) (snaps.persisted κ.stored) snaps.store.db.log
      n.logs.queue := by
    rw [hdb]
    exact hlogs.journal
  have hdisk : DiskOk κ (snaps.persisted κ.stored) n.told n.known n.vote n.writes
      snaps.store.db [] :=
    h.disk.writeNow (hget _ (by decide)) ((hget _ (by decide)).trans h.disk.vote) hbase
      (List.Subset.refl _)
  exact { h with
    log := hlog
    agree := hagree
    known_le := hle
    told_le := htold
    shared := rfl
    logs := { hlogs with journal := hjournal }
    durable := hdurable
    snaps := hsnaps
    disk := hdisk.learn hknown hforth hnew }

theorem persistBuild (h : NodeOk κ n) {snaps : SnapshotSystem} (hsafe : n.snaps.overtaken = false)
    (hstep : n.snaps.step κ.postcard κ.decV0 κ.stored (.persistBuild true) = some snaps) :
    NodeOk κ { n.withSnaps snaps with earlier := [] } := by
  obtain ⟨hsnaps, hforth, stored, hdb⟩ := h.snaps.persistBuild h.committed hsafe hstep
  have hlen := (hsnaps.base_le.trans h.told_le).trans h.known_le_log
  rw [h.shared] at hdb
  exact h.persist hsnaps hdb hforth h.log h.agree le_rfl h.known_le h.told_le le_rfl
    (Or.inl le_rfl) (h.logs.rebase hforth hlen) (h.logsKnown.rebase hforth hlen).acked_le

theorem persistInstall (h : NodeOk κ n) (hstep : n.persistInstall κ = some n') : NodeOk κ n' := by
  unfold Node.persistInstall at hstep
  cases hi : n.snaps.install with
  | none | persisted =>
      rw [hi] at hstep
      cases hstep
  | decoded stored data =>
      simp only [hi] at hstep
      obtain ⟨⟨htold, hmatch⟩, hstep⟩ := Option.ite_none_right_eq_some.mp hstep
      obtain ⟨own, hown, rfl⟩ := Option.map_eq_some_iff.mp hstep
      obtain ⟨snaps, hsnaps, rfl⟩ := Option.map_eq_some_iff.mp hown
      obtain ⟨hsnaps, hbase, hlen, hdb⟩ := h.snaps.persistInstall h.committed hi hsnaps
      rw [h.shared] at hdb
      have hforth : n.base κ ≤ stored.covered := h.snaps.base_le.trans htold
      by_cases hshort : stored.covered ≤ n.log.length
      · -- The log goes on above the snapshot.
        have hlogs := h.logs.rebase hforth hshort
        have hknown := (h.logsKnown.rebase hforth hshort).acked_le
        rw [← hbase] at hlogs hknown hforth
        simp only [hshort, if_true]
        refine h.persist hsnaps hdb hforth h.log ?_ (le_max_left ..) (max_le h.known_le hlen)
          (le_max_right ..) htold (Or.inr hbase.ge) hlogs (max_le hknown ?_)
        · rcases le_total n.known stored.covered with hle | hle
          · rw [max_eq_right hle]
            exact hmatch hshort
          · rw [max_eq_left hle]
            exact h.agree
        · exact hbase ▸ base_le_durable
      · -- The snapshot replaces the log.
        have hlt := Nat.not_le.mp hshort
        have htake : (n.committed.take stored.covered).length = stored.covered :=
          List.length_take_of_le hlen
        have hlogs := h.logs.replace (htake.symm ▸ hlt.le)
        rw [htake] at hlogs
        rw [← hbase] at hforth
        have hmax : max n.known stored.covered = stored.covered :=
          max_eq_right (h.known_le_log.trans hlt.le)
        simp only [hshort, if_false, hmax]
        refine h.persist hsnaps hdb hforth (h.committed.take _) ?_ (h.known_le_log.trans hlt.le)
          hlen le_rfl htold (Or.inr hbase.ge) (by rwa [hbase]) (hbase ▸ base_le_durable)
        rw [List.take_take, min_self]

end NodeOk

/-! ## Starting -/

theorem replayStart_eq_covered (snap : Option Nat) : replayStart snap = covered snap := by
  cases snap <;> rfl

/-- A state machine that is opened has the state of the persisted snapshot. -/
theorem new_covered {s : SnapshotSystem} (h : SnapshotInv κ.postcard κ.decV0 κ.stored s)
    {store : StateMachineStore}
    (hnew : StateMachineStore.new κ.postcard κ.decV0 κ.stored s.store.db = .ok store) :
    store.data.covered = s.persisted κ.stored := by
  unfold StateMachineStore.new at hnew
  cases hget : s.store.db.get keySnapshot with
  | none =>
      rw [hget] at hnew
      cases hnew
      rw [SnapshotSystem.persisted, snapshotLastIndex, hget]
      rfl
  | some bytes =>
      obtain ⟨stored, rfl, hfaithful⟩ := h.record bytes hget
      simp only [hget, κ.stored.dec_enc, bind, Except.bind] at hnew
      cases hdecode : decodeState κ.postcard κ.decV0 stored.data with
      | error reason =>
          rw [hdecode] at hnew
          cases hnew
      | ok data =>
          rw [hdecode] at hnew
          cases hnew
          exact (hfaithful.covered hdecode).trans (persisted_of_get hget).symm

/-- A read of a database that was just opened. -/
theorem tryGetLogEntries_opened {log : List Entry} {base stop : Nat} {s : LogStore}
    {acked : Nat} (h : LogsOk κ log base acked s) {db : Storage} (hdb : db.log = s.db.log)
    {start : Nat} (hstart : base ≤ start) (hstop : start ≤ stop)
    (hdurable : stop ≤ durable (log.map κ.entry.enc) base s.queue) :
    LogStore.tryGetLogEntries κ.entry { db := db } (.included start) (.excluded stop) =
      .ok ((log.take stop).drop start) := by
  have hmerged : LogStore.readPending { db := db } start stop
      (LogStore.readDb { db := db } start stop) = s.db.log.range start stop := by
    rw [← hdb]
    exact OrdMap.ofList_entries _
  have hvalues : (s.db.log.range start stop).values =
      ((log.take stop).drop start).map κ.entry.enc := by
    rw [h.journal.values_range hstart hdurable, List.map_drop, List.map_take]
  show LogStore.readRange κ.entry { db := db } { db := db } start stop = _
  rw [LogStore.readRange, if_neg (Nat.not_lt.mpr hstop), hmerged, LogStore.decodeEntries, hvalues]
  exact κ.entry.mapM_dec _

namespace NodeOk

variable {n n' : Node} {db : Storage}
  {reapply : StateMachineStore → Except String StateMachineData}

/-- The index that the snapshot on disk covers. -/
theorem snapshotLastIndex_ok (h : NodeOk κ n) (hdb : db ∈ n.logs.db :: n.earlier) :
    ∃ snap, snapshotLastIndex κ.stored db = .ok snap ∧ covered snap = n.base κ := by
  have hget : db.get keySnapshot = n.snaps.store.db.get keySnapshot := by
    rw [h.shared]
    exact (h.disk.same_of_mem hdb).2 _ (by decide)
  have hindex : snapshotLastIndex κ.stored db = snapshotLastIndex κ.stored n.snaps.store.db := by
    rw [snapshotLastIndex, snapshotLastIndex, hget]
  rw [hindex, Node.base, SnapshotSystem.persisted]
  cases hrecord : n.snaps.store.db.get keySnapshot with
  | none =>
      rw [snapshotLastIndex, hrecord]
      exact ⟨none, rfl, rfl⟩
  | some bytes =>
      obtain ⟨stored, rfl, -⟩ := h.snaps.snaps.record bytes hrecord
      simp only [snapshotLastIndex, hrecord, κ.stored.dec_enc]
      exact ⟨_, rfl, rfl⟩

/-- There is nothing to repair. -/
theorem recoverConsistency_eq_self (h : NodeOk κ n) (hdb : db ∈ n.logs.db :: n.earlier) :
    recoverConsistency κ.stored κ.committed db = (db, .ok ()) := by
  obtain ⟨snap, hsnap, hbase⟩ := h.snapshotLastIndex_ok hdb
  obtain ⟨c, hc, hlt⟩ := h.disk.pointer db hdb
  have hlog := (h.disk.same_of_mem hdb).1
  have hhealthy : Healthy snap c db := by
    refine ⟨fun first hfirst => ?_, fun id hid => ?_⟩
    · rw [replayStart_eq_covered, hbase]
      rw [Storage.firstLogIndex, hlog] at hfirst
      exact h.logs.journal.first_le hfirst
    · rcases Nat.lt_or_ge id.index (n.base κ) with hbelow | habove
      · cases snap with
        | none =>
            rw [← hbase] at hbelow
            exact absurd hbelow (Nat.not_lt_zero _)
        | some r =>
            rw [← hbase] at hbelow
            exact ⟨r, Or.inl rfl, Nat.le_of_lt_succ hbelow⟩
      · obtain ⟨last, hlast, hle⟩ :=
          h.logs.journal.le_last habove ((hlt id hid).trans_le h.durable)
        rw [← hlog] at hlast
        exact ⟨last, Or.inr hlast, hle⟩
  refine hhealthy.unchanged (fun i hi => ?_) hsnap hc
  have hroom := (h.base_le.trans h.known_le).trans h.room
  rwa [← hbase, hi] at hroom

/-- The pointer that Raft reads, if the snapshot does not cover it. -/
theorem readCommitted_opened (h : NodeOk κ n) (hdb : db ∈ n.logs.db :: n.earlier)
    {c : Option LogId} (hc : LogStore.storedCommitted κ.committed db = .ok c) :
    ∃ c', LogStore.readCommitted κ.committed { db := db } = .ok c' ∧
      (c' = c ∨ c' = none ∧ covered (c.map (·.index)) ≤ n.base κ) := by
  have hlast : LogStore.lastIndex { db := db } = db.lastLogIndex := by
    rw [LogStore.lastIndex]
    cases db.lastLogIndex <;> rfl
  rw [LogStore.readCommitted, hc, hlast]
  cases c with
  | none => exact ⟨none, rfl, Or.inl rfl⟩
  | some id =>
      simp only [bind, Except.bind]
      rcases Nat.lt_or_ge id.index (n.base κ) with hbelow | habove
      · split
        · split_ifs
          · exact ⟨some id, rfl, Or.inl rfl⟩
          · exact ⟨none, rfl, Or.inr ⟨rfl, hbelow⟩⟩
        · exact ⟨none, rfl, Or.inr ⟨rfl, hbelow⟩⟩
      · obtain ⟨c, hc', hlt⟩ := h.disk.pointer db hdb
        obtain rfl := Except.ok.inj (hc.symm.trans hc')
        obtain ⟨last, hkey, hle⟩ :=
          h.logs.journal.le_last habove ((hlt id rfl).trans_le h.durable)
        rw [← (h.disk.same_of_mem hdb).1] at hkey
        rw [Storage.lastLogIndex, hkey]
        simp only [hle, if_true]
        exact ⟨some id, rfl, Or.inl rfl⟩

/-- The log has all of what Raft applies again. -/
theorem reapply_eq (h : NodeOk κ n) (hraft : Reapplies κ reapply)
    (hdb : db ∈ n.logs.db :: n.earlier) {c : Option LogId}
    (hc : LogStore.storedCommitted κ.committed db = .ok c) {store : StateMachineStore}
    (hstore : store.db = db) (hdata : store.data = replay n.committed (n.base κ)) :
    reapply store = .ok (replay n.committed (max (n.base κ) (covered (c.map (·.index))))) := by
  have hbase : store.data.covered = n.base κ := by
    rw [hdata, covered_replay h.committed (h.base_le.trans h.known_le)]
  obtain ⟨c', hc', hcases⟩ := h.readCommitted_opened hdb hc
  rw [← hstore] at hc'
  rcases hcases with rfl | ⟨rfl, hle⟩
  · cases c' with
    | none => rw [hraft.nothing store hc', hdata, Option.map_none, covered, Nat.max_zero]
    | some id =>
        obtain ⟨c, hc'', hlt⟩ := h.disk.pointer db hdb
        obtain rfl := Except.ok.inj (hc.symm.trans hc'')
        have hknown : id.index + 1 ≤ n.known := hlt id rfl
        rw [Option.map_some, covered]
        rcases Nat.lt_or_ge id.index (n.base κ) with hbelow | habove
        · rw [hraft.applied store id hc' (hbase ▸ hbelow), hdata, max_eq_left hbelow]
        · have hagree : n.log.take (id.index + 1) = n.committed.take (id.index + 1) := by
            have htake := congrArg (List.take (id.index + 1)) h.agree
            rwa [List.take_take, List.take_take, min_eq_left hknown] at htake
          have hread : LogStore.tryGetLogEntries κ.entry { db := db } (.included (n.base κ))
              (.excluded (id.index + 1)) =
                .ok ((n.committed.drop (n.base κ)).take (id.index + 1 - n.base κ)) := by
            rw [← List.drop_take, ← hagree]
            exact tryGetLogEntries_opened h.logs (h.disk.same_of_mem hdb).1 le_rfl
              (habove.trans (Nat.le_succ _)) (hknown.trans h.durable)
          have hlength : n.base κ + ((n.committed.drop (n.base κ)).take
              (id.index + 1 - n.base κ)).length = id.index + 1 := by
            have hlen := hknown.trans h.known_le
            rw [List.length_take, List.length_drop]
            omega
          rw [← hstore, ← hbase] at hread
          rw [← hbase] at hlength
          rw [hraft.committed store id _ hc' (hbase.symm ▸ habove) hread hlength, hbase, hdata,
            apply_replay, Nat.add_sub_cancel' (habove.trans (Nat.le_succ _)),
            max_eq_right (habove.trans (Nat.le_succ _))]
  · rw [hraft.nothing store hc', hdata, max_eq_left hle]

theorem pointer_le (h : NodeOk κ n) {c : Option LogId}
    (hlt : ∀ id, c = some id → id.index < n.known) :
    max (n.base κ) (covered (c.map (·.index))) ≤ n.known := by
  refine max_le h.base_le ?_
  cases c with
  | none => exact Nat.zero_le _
  | some id => exact hlt id rfl

/-- What a process finds when it starts with any state that the disk may have. -/
theorem start_eq (h : NodeOk κ n) (hraft : Reapplies κ reapply)
    (hdb : db ∈ n.logs.db :: n.earlier) {c : Option LogId}
    (hc : LogStore.storedCommitted κ.committed db = .ok c) {store : StateMachineStore}
    (hnew : StateMachineStore.new κ.postcard κ.decV0 κ.stored db = .ok store) :
    start κ reapply db = (db, .ok { store with
      data := replay n.committed (max (n.base κ) (covered (c.map (·.index)))) }) ∧
      store.db = db := by
  have hget : db.get keySnapshot = n.snaps.store.db.get keySnapshot := by
    rw [h.shared]
    exact (h.disk.same_of_mem hdb).2 _ (by decide)
  have hopened := h.snaps.setDb hget
  obtain ⟨⟨k, hk, hdata⟩, hstore⟩ := hopened.node.new hnew
  have hbase : store.data.covered = n.base κ :=
    (new_covered hopened.snaps hnew).trans (persisted_congr hget)
  rw [hdata, covered_replay h.committed hk] at hbase
  rw [hbase] at hdata
  refine ⟨?_, hstore⟩
  rw [start, h.recoverConsistency_eq_self hdb]
  simp only [hnew, bind, Except.bind, pure, Except.pure, h.reapply_eq hraft hdb hc hstore hdata]

/-- The new process starts from what the old one was told. -/
theorem started (h : NodeOk κ n) (hdb : db ∈ n.logs.db :: n.earlier) {k : Nat}
    {store : StateMachineStore} (hstore : store.db = db) (hdata : store.data = replay n.committed k)
    (hbase : n.base κ ≤ k) (hlen : k ≤ n.committed.length) :
    SnapsOk κ n.committed k { store := store } := by
  have hget : store.db.get keySnapshot = n.snaps.store.db.get keySnapshot := by
    rw [hstore, h.shared]
    exact (h.disk.same_of_mem hdb).2 _ (by decide)
  have hpersisted : SnapshotSystem.persisted κ.stored { store := store } = n.base κ :=
    persisted_congr hget
  have hcovered : store.data.covered = k := by rw [hdata, covered_replay h.committed hlen]
  refine ⟨⟨⟨k, hlen, hdata⟩, fun bytes hb => h.snaps.node.record bytes (hget ▸ hb),
      fun _ hb => (by cases hb), fun _ _ hi => (by rcases hi with hi | hi <;> cases hi)⟩,
    ⟨fun bytes hb => h.snaps.snaps.record bytes (hget ▸ hb), fun _ hb => (by cases hb),
      fun _ hb => (by cases hb), fun _ hb => (by cases hb),
      fun _ _ hi => (by rcases hi with hi | hi <;> cases hi), Nat.zero_le _, ?_,
      fun _ hmem => absurd hmem List.not_mem_nil⟩, hcovered.le, hpersisted ▸ hbase⟩
  rw [hpersisted]
  exact le_max_of_le_left (hcovered.symm ▸ hbase)

theorem crash (h : NodeOk κ n) (hraft : Reapplies κ reapply)
    (hdb : db ∈ n.logs.db :: n.earlier) (hstep : n.crash κ reapply db = some n') :
    NodeOk κ n' := by
  obtain ⟨c, hc, hlt⟩ := h.disk.pointer db hdb
  cases hnew : StateMachineStore.new κ.postcard κ.decV0 κ.stored db with
  | error reason =>
      have hstart : start κ reapply db = (db, .error reason) := by
        rw [start, h.recoverConsistency_eq_self hdb]
        simp only [hnew, bind, Except.bind]
      rw [Node.crash, hstart] at hstep
      cases hstep
  | ok store =>
      obtain ⟨hstart, hstore⟩ := h.start_eq hraft hdb hc hnew
      rw [Node.crash, hstart] at hstep
      cases hstep
      set k := max (n.base κ) (covered (c.map (·.index)))
      have hk : k ≤ n.known := h.pointer_le hlt
      have hcovered := covered_replay h.committed (hk.trans h.known_le)
      obtain ⟨hlog, hget⟩ := h.disk.same_of_mem hdb
      have hsnaps : SnapsOk κ n.committed k
          { store := { store with data := replay n.committed k } } :=
        h.started hdb hstore rfl (le_max_left ..) (hk.trans h.known_le)
      have hbase : SnapshotSystem.persisted κ.stored
          { store := { store with data := replay n.committed k } } = n.base κ :=
        persisted_congr (by rw [h.shared]; exact hstore ▸ hget _ (by decide))
      refine {
        committed := h.committed
        room := h.room
        log := h.log.take _
        agree := ?_
        known_le := h.known_le
        told_le := hcovered.trans_le hk
        shared := hstore
        logs := by rw [Node.base, hbase]; exact h.logs.crash hlog
        durable := ?_
        snaps := hcovered.symm ▸ hsnaps
        disk := ?_ }
      · rw [List.take_take, min_eq_left h.durable]
        exact h.agree
      · show n.known ≤ Journal.durable ((n.log.take (n.durable κ)).map κ.entry.enc)
          (SnapshotSystem.persisted κ.stored
            { store := { store with data := replay n.committed k } }) _
        rw [hbase]
        exact (h.logsKnown.crash hlog).acked_le
      · rw [Node.base, hbase]
        refine ⟨(hget _ (by decide)).trans h.disk.vote, fun d hd => ?_, fun c' hc' => ?_,
          fun d hd => absurd hd List.not_mem_nil, fun w hw => absurd hw List.not_mem_nil⟩
        · rw [List.mem_singleton.mp hd]
          exact ⟨c, hc, hlt⟩
        · obtain rfl := Except.ok.inj (hc.symm.trans hc')
          exact hcovered.symm ▸ ⟨le_max_right .., le_rfl⟩

theorem empty_start : NodeOk κ {} where
  committed k e h := by cases h
  room := Nat.zero_le _
  log k e h := by cases h
  agree := rfl
  known_le := le_rfl
  told_le := le_rfl
  shared := rfl
  logs := ⟨Journal.empty_start, le_rfl, fun c hc => (by cases hc), fun c hc => (by cases hc),
    List.Pairwise.nil⟩
  durable := le_rfl
  snaps := ⟨NodeInv.empty [], SnapshotInv.empty_start, le_rfl, le_rfl⟩
  disk := ⟨rfl,
    fun d hd => ⟨none, by rw [List.mem_singleton.mp hd]; rfl, fun id hid => by cases hid⟩,
    fun c hc => (by cases hc; exact ⟨le_rfl, le_rfl⟩), fun d hd => absurd hd List.not_mem_nil,
    fun w hw => absurd hw List.not_mem_nil⟩

/-- Every step keeps the node ready for a crash. -/
theorem step (h : NodeOk κ n) (hraft : Reapplies κ reapply) {e : NodeEvent}
    (hstep : n.step κ reapply e = some n')
    (hroom : ∀ entry, e = .commit entry → entry.logId.index < u64Max)
    (hsafe : e = .persistBuild → n.snaps.overtaken = false) : NodeOk κ n' := by
  cases e with
  | commit entry =>
      obtain ⟨he, hn'⟩ := Option.ite_none_right_eq_some.mp hstep
      cases hn'
      exact h.commit he (hroom entry rfl)
  | append es =>
      obtain ⟨hes, hn'⟩ := Option.ite_none_right_eq_some.mp hstep
      cases hn'
      exact h.append hes
  | flush => exact h.flush hstep
  | truncate index =>
      obtain ⟨⟨hjobs, hf, hindex⟩, hn'⟩ := Option.ite_none_right_eq_some.mp hstep
      cases hn'
      exact h.truncate hjobs hf hindex
  | purge upto =>
      obtain ⟨⟨-, -, -, hupto⟩, hn'⟩ := Option.ite_none_right_eq_some.mp hstep
      split at hn'
      · cases hn'
      · rename_i writes hwrites
        cases hn'
        exact h.purge hupto hwrites _
  | purgeWrite =>
      simp only [Node.step] at hstep
      split at hstep
      · cases hstep
      · rename_i w rest hw
        cases hstep
        exact h.purgeWrite hw
  | saveVote vote =>
      cases hstep
      exact h.saveVote vote
  | saveCommitted upto =>
      obtain ⟨⟨htold, hdurable, hcommitted, hagree⟩, hn'⟩ :=
        Option.ite_none_right_eq_some.mp hstep
      cases hn'
      exact h.saveCommitted htold hdurable hcommitted hagree
  | apply count =>
      obtain ⟨hcount, hown⟩ := Option.ite_none_right_eq_some.mp hstep
      obtain ⟨snaps, hsnaps, rfl⟩ := Option.map_eq_some_iff.mp hown
      exact h.idle (h.snaps.apply h.committed (h.told_le.trans h.known_le) hcount hsnaps)
  | cloneState =>
      obtain ⟨snaps, hsnaps, rfl⟩ := Option.map_eq_some_iff.mp hstep
      exact h.idle (h.snaps.cloneState h.committed hsnaps)
  | persistBuild =>
      obtain ⟨own, hown, rfl⟩ := Option.map_eq_some_iff.mp hstep
      obtain ⟨snaps, hsnaps, rfl⟩ := Option.map_eq_some_iff.mp hown
      exact h.persistBuild (hsafe rfl) hsnaps
  | receive upto snapshotId =>
      obtain ⟨hupto, hown⟩ := Option.ite_none_right_eq_some.mp hstep
      obtain ⟨snaps, hsnaps, rfl⟩ := Option.map_eq_some_iff.mp hown
      exact h.idle (h.snaps.receive h.committed hupto hsnaps)
  | persistInstall => exact h.persistInstall hstep
  | replaceState =>
      obtain ⟨snaps, hsnaps, rfl⟩ := Option.map_eq_some_iff.mp hstep
      exact h.idle (h.snaps.replaceState h.committed hsnaps)
  | crash db =>
      obtain ⟨hdb, hn'⟩ := Option.ite_none_right_eq_some.mp hstep
      exact h.crash hraft hdb hn'

theorem run (hraft : Reapplies κ reapply) {evs : List NodeEvent}
    (hrun : Node.run κ reapply {} evs = some n)
    (hroom : ∀ entry, .commit entry ∈ evs → entry.logId.index < u64Max)
    (hover : Node.NeverOvertaken κ reapply {} evs) : NodeOk κ n := by
  have hcommits : Machine.Along (Node.step κ reapply)
      (fun _ e _ => ∀ entry, e = .commit entry → entry.logId.index < u64Max) {} evs :=
    Machine.along_of_forall fun _ e _ he _ entry hentry => hroom entry (hentry ▸ he)
  exact Machine.run_invariant (fun _ _ _ h hstep hsafe => h.step hraft hstep hsafe.1 hsafe.2)
    empty_start (hcommits.and hover) hrun

end NodeOk

/-- Stop a node anywhere in a run with any number of crashes in it, in which
no overtaken build is persisted, and let the disk have any of the states it
may have. Nothing needs repair; with Raft's part of the start the state
machine comes back as that of a committed prefix of the log, all of what the
process was told if the disk lost nothing; the vote is the one last saved;
and the log still has every entry that the node has reported to be on disk
or ever knew to be committed. -/
theorem restart_recovers {κ : NodeCodecs}
    {reapply : StateMachineStore → Except String StateMachineData} (hraft : Reapplies κ reapply)
    {evs : List NodeEvent} {n : Node} {db : Storage} (hrun : Node.run κ reapply {} evs = some n)
    (hroom : ∀ entry, .commit entry ∈ evs → entry.logId.index < u64Max)
    (hover : Node.NeverOvertaken κ reapply {} evs)
    (hbounded : ∀ k ≤ n.committed.length, (replay n.committed k).queue.Bounded)
    (hdb : db ∈ n.logs.db :: n.earlier) :
    (∃ store k, start κ reapply db = (db, .ok store) ∧ store.db = db ∧
      store.data = replay n.committed k ∧ n.base κ ≤ k ∧ k ≤ n.known ∧
      (db = n.logs.db → k = n.told)) ∧
    db.readVote = n.vote ∧ n.log.take n.known = n.committed.take n.known ∧
    ∃ stop, n.acked ≤ stop ∧ n.known ≤ stop ∧
      LogStore.tryGetLogEntries κ.entry { db := db } (.included (n.base κ)) (.excluded stop) =
        .ok ((n.log.take stop).drop (n.base κ)) := by
  have h := NodeOk.run hraft hrun hroom hover
  obtain ⟨c, hc, hlt⟩ := h.disk.pointer db hdb
  obtain ⟨hlog, hget⟩ := h.disk.same_of_mem hdb
  have hopened := h.snaps.setDb (h.shared.symm ▸ hget keySnapshot (by decide))
  obtain ⟨store, hnew⟩ := hopened.node.restarts hbounded
  obtain ⟨hstart, hstore⟩ := h.start_eq hraft hdb hc hnew
  refine ⟨⟨_, _, hstart, hstore, rfl, le_max_left .., h.pointer_le hlt, fun heq => ?_⟩,
    (hget _ (by decide)).trans h.disk.vote, h.agree, n.durable κ, h.logs.acked_le, h.durable,
    tryGetLogEntries_opened h.logs hlog le_rfl base_le_durable le_rfl⟩
  obtain ⟨hle, hge⟩ := h.disk.current c (heq ▸ hc)
  exact le_antisymm (max_le h.snaps.base_le hle) hge

def restartLog : List Entry := [blankAt 0, blankAt 1]

/-- The snapshot after the first entry. -/
def restartSnapshot : StoredSnapshot where
  snapshotMeta := { lastLogId := some ⟨⟨1, 1⟩, 0⟩, lastMembership := {}, snapshotId := "0-1" }
  data := snapshotFormat

noncomputable def restartCodecs : NodeCodecs where
  postcard := (Codec.ofCountable StateMachineData).shorten [replay restartLog 1]
  decV0 _ := .error "old layout"
  stored := (Codec.ofCountable StoredSnapshot).shorten [restartSnapshot]
  entry := (Codec.ofCountable Entry).shorten restartLog
  logId := .ofCountable LogId
  committed := (Codec.ofCountable (Option LogId)).shorten (restartLog.map (some ·.logId))

/-- Two entries, a snapshot of the first, and a pointer to the second that
the disk may still lose. -/
def restartEvents : List NodeEvent :=
  restartLog.map .commit ++ [.append restartLog] ++ List.replicate 4 .flush ++
    [.saveCommitted 1, .apply 1, .cloneState, .persistBuild, .saveVote [7], .saveCommitted 2]

/-- Raft's part of the start: what the log has between the applied state and
the committed pointer is applied. -/
noncomputable def restartReapply (store : StateMachineStore) : Except String StateMachineData := do
  match ← LogStore.readCommitted restartCodecs.committed { db := store.db } with
  | none => return store.data
  | some c =>
      if c.index < store.data.covered then return store.data
      else
        let entries ← LogStore.tryGetLogEntries restartCodecs.entry { db := store.db }
          (.included store.data.covered) (.excluded (c.index + 1))
        return (store.data.apply entries).1

theorem restartReapply_reapplies : Reapplies restartCodecs restartReapply where
  nothing store h := by
    rw [restartReapply, h]
    rfl
  applied store c h hlt := by
    rw [restartReapply, h]
    exact if_pos hlt
  committed store c entries h hle hread _ := by
    rw [restartReapply, h]
    refine (if_neg (Nat.not_lt.mpr hle)).trans ?_
    rw [hread]
    rfl

theorem restart_recovers_lost_pointer :
    ∃ n db store k, Node.run restartCodecs restartReapply {} restartEvents = some n ∧
      n.earlier = [db] ∧ start restartCodecs restartReapply db = (db, .ok store) ∧
      store.data = replay restartLog k ∧ k ≤ 2 ∧ db.readVote = some [7] := by
  have hlast : (Node.run restartCodecs restartReapply {} restartEvents).map
      (fun n => (n.committed, n.known, n.vote, n.earlier.length)) =
        some (restartLog, 2, some [7], 1) := rfl
  obtain ⟨n, hrun, hn⟩ := Option.map_eq_some_iff.mp hlast
  simp only [Prod.mk.injEq] at hn
  obtain ⟨hcommitted, hknown, hvote, hearlier⟩ := hn
  obtain ⟨db, hdb⟩ := List.length_eq_one_iff.mp hearlier
  have hroom : ∀ entry, NodeEvent.commit entry ∈ restartEvents → entry.logId.index < u64Max := by
    intro entry hentry
    have hmem : entry ∈ restartLog := by simpa [restartEvents] using hentry
    have hsmall : ∀ entry ∈ restartLog, entry.logId.index < u64Max := by decide
    exact hsmall entry hmem
  have hover : Node.NeverOvertaken restartCodecs restartReapply {} restartEvents :=
    ⟨fun h => (by cases h), fun h => (by cases h), fun h => (by cases h), fun h => (by cases h),
      fun h => (by cases h), fun h => (by cases h), fun h => (by cases h), fun h => (by cases h),
      fun h => (by cases h), fun h => (by cases h), fun _ => rfl, fun h => (by cases h),
      fun h => (by cases h), trivial⟩
  have hbounded : ∀ k ≤ n.committed.length, (replay n.committed k).queue.Bounded := by
    rw [hcommitted]
    intro k hk
    have hk : k = 0 ∨ k = 1 ∨ k = 2 := by
      change k ≤ 2 at hk
      omega
    rcases hk with rfl | rfl | rfl <;> exact (validate_ok_iff.mp (by decide)).1
  obtain ⟨⟨store, k, hstart, -, hdata, -, hk, -⟩, hread, -⟩ :=
    restart_recovers restartReapply_reapplies hrun hroom hover hbounded
      (hdb ▸ List.mem_cons_of_mem _ List.mem_cons_self)
  exact ⟨n, db, store, k, hrun, hdb, hstart, hcommitted ▸ hdata, hknown ▸ hk, hread.trans hvote⟩

end HermesMq
