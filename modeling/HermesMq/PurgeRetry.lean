import HermesMq.Recovery

/-!
# Purging again after a crash

`mark_purged` makes two durable writes: the purge marker, and then the
removal of the entries up to it. A process that stops between the two
leaves the marker with the entries still there. The check that keeps an
older purge from lowering the marker then also keeps the same purge from
being done again: the marker is found and nothing is written.

The restart in between runs the startup repair, which drops a log that
starts ahead of the snapshot together with the marker. So a purge can be
retried exactly if the repair leaves the log and there was nothing to
remove, or if the repair drops the log and there was nothing to keep
(`purge_retry_iff`).
-/

namespace HermesMq

section Retry

variable (entryCodec : Codec Entry) (logIdCodec : Codec LogId)
  (storedCodec : Codec StoredSnapshot) (committedCodec : Codec (Option LogId))

/-! ## The writes of a purge -/

/-- The writes of `mark_purged`, in order. -/
def purgeWrites (db : Storage) (upto : LogId) : Except String (List Storage.Write) :=
  match db.get keyPurged with
  | none => .ok [.put keyPurged (logIdCodec.enc upto), .purgeLogUpto upto.index]
  | some bytes => do
      let current ← logIdCodec.dec bytes
      if current.index ≥ upto.index then return []
      else return [.put keyPurged (logIdCodec.enc upto), .purgeLogUpto upto.index]

theorem markPurged_writes (db : Storage) (upto : LogId) :
    LogStore.markPurged logIdCodec db upto = (purgeWrites logIdCodec db upto).map db.writeAll := by
  unfold LogStore.markPurged purgeWrites
  cases db.get keyPurged with
  | none => rfl
  | some bytes =>
      simp only [bind, Except.bind]
      cases logIdCodec.dec bytes with
      | error e => rfl
      | ok current =>
          simp only
          split_ifs <;> rfl

/-- `get_log_state` of a node that opens the database reports a log that
does not end before its purge marker. -/
def ReportsOrdered (db : Storage) : Prop :=
  ∃ st, LogStore.getLogState entryCodec logIdCodec { db := db } = .ok st ∧
    ∀ p, st.lastPurgedLogId = some p → ∃ last, st.lastLogId = some last ∧ p ≤ last

/-- Wherever the purge is stopped between two of its writes, the restart
repairs the store, and purging again ends where an uninterrupted purge
does, with the entries gone and the marker set; and from the first write on
the log state is ordered at every point. -/
def Retryable (db : Storage) (upto : LogId) : Prop :=
  ∃ writes whole, purgeWrites logIdCodec db upto = .ok writes ∧
    LogStore.markPurged logIdCodec db upto = .ok whole ∧
    ∀ k, 0 < k → k < writes.length →
      ReportsOrdered entryCodec logIdCodec (db.writeAll (writes.take k)) ∧
      ∃ restarted again,
        recoverConsistency storedCodec committedCodec (db.writeAll (writes.take k)) =
          (restarted, .ok ()) ∧
        purgeWrites logIdCodec restarted upto = .ok again ∧
        (∀ j, ReportsOrdered entryCodec logIdCodec (restarted.writeAll (again.take j))) ∧
        LogStore.purge logIdCodec { db := restarted } upto = .ok { db := whole } ∧
        (∀ i ≤ upto.index, whole.log.get? i = none) ∧
        whole.get keyPurged = some (logIdCodec.enc upto)

/-! ## The log state -/

/-- The bytes of the last entry, as `get_log_state` finds them. -/
def lastBytes (db : Storage) : Option Bytes :=
  db.lastLogIndex.bind (LogStore.bytesAt { db := db })

variable {entryCodec logIdCodec storedCodec committedCodec} {db db' : Storage} {upto : LogId}

theorem lastBytes_congr (h : db.log = db'.log) : lastBytes db = lastBytes db' := by
  have hbytes : LogStore.bytesAt { db := db } = LogStore.bytesAt { db := db' } := by
    funext i
    simp only [LogStore.bytesAt, Storage.readLog, h]
  rw [lastBytes, lastBytes, Storage.lastLogIndex, Storage.lastLogIndex, h, hbytes]

theorem lastBytes_empty (h : db.log = ∅) : lastBytes db = none := by
  rw [lastBytes, Storage.lastLogIndex, h]
  rfl

/-- The log state of a freshly opened database. -/
theorem getLogState_opened (db : Storage) :
    LogStore.getLogState entryCodec logIdCodec { db := db } = (do
      let lastPurged ← LogStore.lastPurged logIdCodec { db := db }
      match lastBytes db with
      | none => return ⟨lastPurged, lastPurged⟩
      | some bytes => return ⟨lastPurged, some (← entryCodec.dec bytes).logId⟩) := by
  have hlast : LogStore.lastIndex { db := db } = db.lastLogIndex := by
    rw [LogStore.lastIndex]
    cases db.lastLogIndex <;> rfl
  rw [LogStore.getLogState, hlast, lastBytes]
  cases db.lastLogIndex with
  | none => rfl
  | some i =>
      refine bind_congr fun lastPurged => ?_
      change (match LogStore.bytesAt { db := db } i with
        | none => pure (LogStore.LogState.mk lastPurged lastPurged)
        | some bytes => do
            let entry ← entryCodec.dec bytes
            pure (LogStore.LogState.mk lastPurged (some entry.logId))) = _
      rw [Option.bind_some]

/-- With the marker set, the report is ordered if the last entry, if any,
is not before it. -/
theorem reportsOrdered_iff (h : db.get keyPurged = some (logIdCodec.enc upto)) :
    ReportsOrdered entryCodec logIdCodec db ↔
      ∀ bytes, lastBytes db = some bytes → ∃ e, entryCodec.dec bytes = .ok e ∧ upto ≤ e.logId := by
  have hpurged : LogStore.lastPurged logIdCodec { db := db } = .ok (some upto) := by
    simp only [LogStore.lastPurged, h, logIdCodec.dec_enc]
    rfl
  rw [ReportsOrdered, getLogState_opened, hpurged]
  cases hlast : lastBytes db with
  | none =>
      refine iff_of_true ⟨⟨some upto, some upto⟩, rfl, fun p hp => ⟨p, hp, ?_⟩⟩ ?_
      · exact le_refl p.sortKey
      · rintro bytes ⟨⟩
  | some bytes =>
      constructor
      · rintro ⟨st, hst, hord⟩ bytes' hbytes'
        obtain rfl := Option.some.inj hbytes'
        cases hdec : entryCodec.dec bytes with
        | error e =>
            simp only [hdec, bind, Except.bind] at hst
            cases hst
        | ok e =>
            simp only [hdec, bind, Except.bind] at hst
            cases hst
            obtain ⟨last, hlast, hle⟩ := hord upto rfl
            exact ⟨e, rfl, Option.some.inj hlast ▸ hle⟩
      · intro hentry
        obtain ⟨e, hdec, hle⟩ := hentry bytes rfl
        refine ⟨⟨some upto, some e.logId⟩, ?_, fun p hp => ⟨e.logId, rfl, ?_⟩⟩
        · simp only [hdec, bind, Except.bind]
          rfl
        · exact Option.some.inj hp ▸ hle

theorem reportsOrdered_of_empty (upto : LogId) (hlog : db.log = ∅)
    (h : db.get keyPurged = none ∨ db.get keyPurged = some (logIdCodec.enc upto)) :
    ReportsOrdered entryCodec logIdCodec db := by
  rcases h with h | h
  · refine ⟨⟨none, none⟩, ?_, by rintro p ⟨⟩⟩
    rw [getLogState_opened, lastBytes_empty hlog]
    simp only [LogStore.lastPurged, h]
    rfl
  · refine (reportsOrdered_iff h).mpr fun bytes hbytes => ?_
    rw [lastBytes_empty hlog] at hbytes
    cases hbytes

/-! ## The second attempt -/

theorem purge_opened {writes : List Storage.Write}
    (h : purgeWrites logIdCodec db upto = .ok writes) :
    LogStore.purge logIdCodec { db := db } upto = .ok { db := db.writeAll writes } := by
  rw [LogStore.purge, markPurged_writes, h]
  rfl

/-- A purge whose marker is in place already does nothing. -/
theorem purgeWrites_of_marked (h : db.get keyPurged = some (logIdCodec.enc upto)) :
    purgeWrites logIdCodec db upto = .ok [] := by
  simp only [purgeWrites, h, logIdCodec.dec_enc]
  exact if_pos le_rfl

/-- A purge above the marker makes both writes. -/
theorem purgeWrites_of_below {purged : Option LogId}
    (hmarker : LogStore.lastPurged logIdCodec { db := db } = .ok purged)
    (hbelow : ∀ p, purged = some p → p.index < upto.index) :
    purgeWrites logIdCodec db upto =
      .ok [.put keyPurged (logIdCodec.enc upto), .purgeLogUpto upto.index] := by
  rw [LogStore.lastPurged] at hmarker
  rw [purgeWrites]
  cases hget : db.get keyPurged with
  | none => rfl
  | some bytes =>
      simp only [hget] at hmarker
      cases hdec : logIdCodec.dec bytes with
      | error e =>
          rw [hdec] at hmarker
          cases hmarker
      | ok current =>
          rw [hdec] at hmarker
          cases hmarker
          simp only [hdec, bind, Except.bind]
          exact if_neg (not_le.mpr (hbelow current rfl))

/-! ## The restart -/

section Restart

variable {snap : Option Nat} {committed : Option LogId} {restarted : Storage}

/-- The database with only the first write made. -/
def cut (logIdCodec : Codec LogId) (db : Storage) (upto : LogId) : Storage :=
  db.put keyPurged (logIdCodec.enc upto)

theorem cut_get {key : String} (hkey : key ≠ keyPurged) :
    (cut logIdCodec db upto).get key = db.get key := by
  rw [cut, Storage.get_put, if_neg hkey]

theorem cut_marker : (cut logIdCodec db upto).get keyPurged = some (logIdCodec.enc upto) := by
  rw [cut, Storage.get_put, if_pos rfl]

/-- The repair reads of the cut database what it would read of the one
before. -/
theorem cut_reads (logIdCodec : Codec LogId) (upto : LogId)
    (hsnap : snapshotLastIndex storedCodec db = .ok snap)
    (hcommitted : LogStore.storedCommitted committedCodec db = .ok committed) :
    snapshotLastIndex storedCodec (cut logIdCodec db upto) = .ok snap ∧
      LogStore.storedCommitted committedCodec (cut logIdCodec db upto) = .ok committed := by
  constructor
  · rw [← hsnap, snapshotLastIndex, snapshotLastIndex, cut_get (by decide)]
  · rw [← hcommitted, LogStore.storedCommitted, LogStore.storedCommitted, Storage.readCommitted,
      Storage.readCommitted, cut_get (by decide)]

/-- The repair drops the log with the marker, or it leaves both. -/
theorem restart_cases (hsnap : snapshotLastIndex storedCodec db = .ok snap)
    (hcommitted : LogStore.storedCommitted committedCodec db = .ok committed)
    (hrec : recoverConsistency storedCodec committedCodec (cut logIdCodec db upto) =
      (restarted, .ok ())) :
    Orphaned (baseNext snap) db ∧ restarted.log = ∅ ∧ restarted.get keyPurged = none ∧
        purgeWrites logIdCodec restarted upto =
          .ok [.put keyPurged (logIdCodec.enc upto), .purgeLogUpto upto.index] ∨
      ¬Orphaned (baseNext snap) db ∧ restarted.log = db.log ∧
        restarted.get keyPurged = some (logIdCodec.enc upto) ∧
        purgeWrites logIdCodec restarted upto = .ok [] := by
  obtain ⟨hsnap', hcommitted'⟩ := cut_reads logIdCodec upto hsnap hcommitted
  obtain ⟨horphaned, hfine⟩ := recoverConsistency_log hsnap' hcommitted' hrec
  by_cases h : Orphaned (baseNext snap) db
  · obtain ⟨hlog, hmarker⟩ := horphaned h
    refine Or.inl ⟨h, hlog, hmarker, ?_⟩
    rw [purgeWrites, hmarker]
  · obtain ⟨hlog, hmarker⟩ := hfine h
    rw [cut_marker] at hmarker
    exact Or.inr ⟨h, hlog, hmarker, purgeWrites_of_marked hmarker⟩

/-- A committed pointer that the repair has kept is backed. -/
theorem backed_of_kept (hsnap : snapshotLastIndex storedCodec db = .ok snap)
    (hcommitted : LogStore.storedCommitted committedCodec db = .ok committed)
    (hrec : recoverConsistency storedCodec committedCodec (cut logIdCodec db upto) =
      (restarted, .ok ()))
    (hkept : restarted.get keyCommitted = db.get keyCommitted) {c : LogId}
    (hc : committed = some c) :
    ∃ r, (snap = some r ∨ restarted.lastLogIndex = some r) ∧ c.index ≤ r := by
  refine not_unbacked_iff.mp fun hun => ?_
  obtain ⟨hsnap', hcommitted'⟩ := cut_reads logIdCodec upto hsnap hcommitted
  have hnone := (recoverConsistency_committed hsnap' hcommitted' hrec).1 ⟨c, hc, hun⟩
  rw [Storage.readCommitted, hkept] at hnone
  rw [LogStore.storedCommitted, Storage.readCommitted, hnone, hc] at hcommitted
  cases hcommitted

/-- One that is backed is kept, with every record but the marker. -/
theorem kept_of_backed (hsnap : snapshotLastIndex storedCodec db = .ok snap)
    (hcommitted : LogStore.storedCommitted committedCodec db = .ok committed)
    (hrec : recoverConsistency storedCodec committedCodec (cut logIdCodec db upto) =
      (restarted, .ok ()))
    (hbacked : ∀ c, committed = some c →
      ∃ r, (snap = some r ∨ restarted.lastLogIndex = some r) ∧ c.index ≤ r)
    {key : String} (hkey : key ≠ keyPurged) : restarted.get key = db.get key := by
  obtain ⟨hsnap', hcommitted'⟩ := cut_reads logIdCodec upto hsnap hcommitted
  rw [recoverConsistency_get_of_backed hsnap' hcommitted' hrec
    (fun c hc => not_unbacked_iff.mpr (hbacked c hc)) hkey, cut_get hkey]

end Restart

/-! ## Retrying -/

section Iff

variable {snap : Option Nat} {committed purged : Option LogId} {restarted : Storage}

/-- The only cut is between the two writes. -/
theorem retryable_iff (hmarker : LogStore.lastPurged logIdCodec { db := db } = .ok purged)
    (hbelow : ∀ p, purged = some p → p.index < upto.index) :
    Retryable entryCodec logIdCodec storedCodec committedCodec db upto ↔
      ReportsOrdered entryCodec logIdCodec (cut logIdCodec db upto) ∧
      ∃ restarted again,
        recoverConsistency storedCodec committedCodec (cut logIdCodec db upto) =
          (restarted, .ok ()) ∧
        purgeWrites logIdCodec restarted upto = .ok again ∧
        (∀ j, ReportsOrdered entryCodec logIdCodec (restarted.writeAll (again.take j))) ∧
        restarted.writeAll again = (cut logIdCodec db upto).purgeLogUpto upto.index := by
  have hwrites := purgeWrites_of_below hmarker hbelow
  have hwhole : LogStore.markPurged logIdCodec db upto =
      .ok ((cut logIdCodec db upto).purgeLogUpto upto.index) := by
    rw [markPurged_writes, hwrites]
    rfl
  constructor
  · rintro ⟨writes, whole, hwrites', hwhole', hretry⟩
    obtain rfl := Except.ok.inj (hwrites.symm.trans hwrites')
    obtain rfl := Except.ok.inj (hwhole.symm.trans hwhole')
    obtain ⟨hordered, restarted, again, hrec, hagain, hpoints, hpurge, -⟩ :=
      hretry 1 Nat.one_pos (by simp)
    refine ⟨hordered, restarted, again, hrec, hagain, hpoints, ?_⟩
    rw [purge_opened hagain] at hpurge
    exact congrArg LogStore.db (Except.ok.inj hpurge)
  · rintro ⟨hordered, restarted, again, hrec, hagain, hpoints, hend⟩
    refine ⟨_, _, hwrites, hwhole, fun k hpos hk => ?_⟩
    obtain rfl : k = 1 := by
      simp only [List.length_cons, List.length_nil] at hk
      omega
    refine ⟨hordered, restarted, again, hrec, hagain, hpoints, ?_, fun i hi => ?_, cut_marker⟩
    · rw [purge_opened hagain, hend]
    · rw [Storage.purgeLogUpto_log, if_pos hi]

/-- A purge of a repaired store whose log was dropped ends where a whole
purge does, exactly if that keeps nothing of the log and the repair has
kept the committed pointer. -/
theorem purged_eq_of_dropped (hlog : restarted.log = ∅) :
    restarted.writeAll [.put keyPurged (logIdCodec.enc upto), .purgeLogUpto upto.index] =
        (cut logIdCodec db upto).purgeLogUpto upto.index ↔
      (∀ i, upto.index < i → db.log.get? i = none) ∧
        ∀ key, key ≠ keyPurged → restarted.get key = db.get key := by
  change (cut logIdCodec restarted upto).purgeLogUpto upto.index = _ ↔ _
  constructor
  · intro h
    refine ⟨fun i hi => ?_, fun key hkey => ?_⟩
    · have hi' := congrArg (fun db => db.log.get? i) h
      simp only [Storage.purgeLogUpto_log, if_neg (Nat.not_le.mpr hi)] at hi'
      change restarted.log.get? i = db.log.get? i at hi'
      rw [← hi', hlog, OrdMap.get?_empty]
    · have hkey' := congrArg (fun db => db.get key) h
      simp only [Storage.get_purgeLogUpto, cut_get hkey] at hkey'
      exact hkey'
  · rintro ⟨habove, hget⟩
    refine Storage.ext_get (OrdMap.ext_get? fun i => ?_) fun key => ?_
    · rw [Storage.purgeLogUpto_log, Storage.purgeLogUpto_log]
      split_ifs with hi
      · rfl
      · change restarted.log.get? i = db.log.get? i
        rw [hlog, OrdMap.get?_empty, habove i (Nat.not_le.mp hi)]
    · rw [Storage.get_purgeLogUpto, Storage.get_purgeLogUpto]
      by_cases hkey : key = keyPurged
      · rw [hkey, cut_marker, cut_marker]
      · rw [cut_get hkey, cut_get hkey, hget key hkey]

/-- A repaired store that kept its log is where a whole purge ends exactly
if there was nothing to purge and the repair has kept the committed
pointer. -/
theorem purged_eq_of_left (hlog : restarted.log = db.log)
    (hmarker : restarted.get keyPurged = some (logIdCodec.enc upto)) :
    restarted = (cut logIdCodec db upto).purgeLogUpto upto.index ↔
      (∀ i ≤ upto.index, db.log.get? i = none) ∧
        ∀ key, key ≠ keyPurged → restarted.get key = db.get key := by
  constructor
  · intro h
    refine ⟨fun i hi => ?_, fun key hkey => ?_⟩
    · rw [← hlog, h, Storage.purgeLogUpto_log, if_pos hi]
    · rw [h, Storage.get_purgeLogUpto, cut_get hkey]
  · rintro ⟨hclean, hget⟩
    refine Storage.ext_get (OrdMap.ext_get? fun i => ?_) fun key => ?_
    · rw [Storage.purgeLogUpto_log, hlog]
      split_ifs with hi
      · exact hclean i hi
      · rfl
    · rw [Storage.get_purgeLogUpto]
      by_cases hkey : key = keyPurged
      · rw [hkey, hmarker, cut_marker]
      · rw [hget key hkey, cut_get hkey]

end Iff

/-- A purge that is stopped between its two writes and done again after a
restart ends where an uninterrupted one does, exactly if: the repair leaves
the log and there is nothing in it to purge, or the repair drops the log
and the purge would have removed all of it; it keeps the committed pointer;
and the log does not end before the purge point. -/
theorem purge_retry_iff {snap : Option Nat} {committed purged : Option LogId}
    (hsnap : snapshotLastIndex storedCodec db = .ok snap)
    (hcommitted : LogStore.storedCommitted committedCodec db = .ok committed)
    (hmarker : LogStore.lastPurged logIdCodec { db := db } = .ok purged)
    (hbelow : ∀ p, purged = some p → p.index < upto.index) :
    Retryable entryCodec logIdCodec storedCodec committedCodec db upto ↔
      (¬Orphaned (baseNext snap) db ∧ (∀ i ≤ upto.index, db.log.get? i = none) ∧
          (∀ c, committed = some c →
            ∃ r, (snap = some r ∨ db.lastLogIndex = some r) ∧ c.index ≤ r) ∨
        Orphaned (baseNext snap) db ∧ (∀ i, upto.index < i → db.log.get? i = none) ∧
          (∀ c, committed = some c → ∃ r, snap = some r ∧ c.index ≤ r)) ∧
      ∀ bytes, lastBytes db = some bytes →
        ∃ e, entryCodec.dec bytes = .ok e ∧ upto ≤ e.logId := by
  obtain ⟨hsnap', hcommitted'⟩ :=
    cut_reads logIdCodec upto hsnap hcommitted
  have hlast : lastBytes (cut logIdCodec db upto) = lastBytes db := lastBytes_congr rfl
  rw [retryable_iff hmarker hbelow, reportsOrdered_iff cut_marker, hlast, and_comm]
  refine and_congr_left fun hordered => ?_
  constructor
  · rintro ⟨restarted, again, hrec, hagain, -, hend⟩
    rcases restart_cases hsnap hcommitted hrec with
      ⟨horph, hlog, -, hboth⟩ | ⟨hfine, hlog, hset, hnothing⟩
    · obtain rfl := Except.ok.inj (hboth.symm.trans hagain)
      obtain ⟨habove, hget⟩ := (purged_eq_of_dropped hlog).mp hend
      refine Or.inr ⟨horph, habove, fun c hc => ?_⟩
      obtain ⟨r, hr | hr, hle⟩ :=
        backed_of_kept hsnap hcommitted hrec (hget _ (by decide)) hc
      · exact ⟨r, hr, hle⟩
      · rw [Storage.lastLogIndex, hlog] at hr
        cases hr
    · obtain rfl := Except.ok.inj (hnothing.symm.trans hagain)
      obtain ⟨hclean, hget⟩ := (purged_eq_of_left hlog hset).mp hend
      refine Or.inl ⟨hfine, hclean, fun c hc => ?_⟩
      have hbacked := backed_of_kept hsnap hcommitted hrec (hget _ (by decide)) hc
      rwa [Storage.lastLogIndex, hlog] at hbacked
  · intro hcond
    obtain ⟨restarted, hrec⟩ : ∃ restarted, recoverConsistency storedCodec committedCodec
        (cut logIdCodec db upto) = (restarted, .ok ()) :=
      ⟨_, recoverConsistency_eq hsnap' hcommitted'⟩
    rcases restart_cases hsnap hcommitted hrec with
      ⟨horph, hlog, hunset, hboth⟩ | ⟨hfine, hlog, hset, hnothing⟩
    · rcases hcond with ⟨hnot, -⟩ | ⟨-, habove, hbacked⟩
      · exact absurd horph hnot
      have hget : ∀ key, key ≠ keyPurged → restarted.get key = db.get key := fun key hkey =>
        kept_of_backed hsnap hcommitted hrec
          (fun c hc => (hbacked c hc).imp fun r hr => ⟨Or.inl hr.1, hr.2⟩) hkey
      refine ⟨restarted, _, hrec, hboth, fun j => ?_,
        (purged_eq_of_dropped hlog).mpr ⟨habove, hget⟩⟩
      -- the log is empty all along, and the marker is gone or set
      rcases j with - | - | j
      · exact reportsOrdered_of_empty upto hlog (Or.inl hunset)
      · exact reportsOrdered_of_empty upto hlog (Or.inr cut_marker)
      · rw [List.take_of_length_le (Nat.le_add_left 2 j)]
        have hboth : (restarted.writeAll [.put keyPurged (logIdCodec.enc upto),
            .purgeLogUpto upto.index]).log = restarted.log.filter fun i _ => upto.index < i := rfl
        refine reportsOrdered_of_empty upto ?_ (Or.inr cut_marker)
        rw [hboth, hlog]
        rfl
    · rcases hcond with ⟨-, hclean, hbacked⟩ | ⟨horph, -⟩
      · have hget : ∀ key, key ≠ keyPurged → restarted.get key = db.get key := fun key hkey => by
          refine kept_of_backed hsnap hcommitted hrec ?_ hkey
          rwa [Storage.lastLogIndex, hlog]
        refine ⟨restarted, [], hrec, hnothing, fun j => ?_,
          (purged_eq_of_left hlog hset).mpr ⟨hclean, hget⟩⟩
        rw [List.take_nil]
        exact (reportsOrdered_iff hset).mpr (lastBytes_congr hlog ▸ hordered)
      · exact absurd horph hfine

/-- A snapshot at 3, the entry 4 above it, and a purge up to 3. -/
theorem purge_retry_nothing_below :
    let snapshot : StoredSnapshot := ⟨⟨some (blankAt 3).logId, {}, "3-1"⟩, []⟩
    Retryable ((Codec.ofCountable Entry).shorten [blankAt 4]) (.ofCountable LogId)
      ((Codec.ofCountable StoredSnapshot).shorten [snapshot])
      ((Codec.ofCountable (Option LogId)).shorten [some (blankAt 4).logId])
      { log := .ofList [(4, [])], records := .ofList [(keySnapshot, []), (keyCommitted, [])] }
      (blankAt 3).logId := by
  intro snapshot
  let db : Storage :=
    { log := .ofList [(4, [])], records := .ofList [(keySnapshot, []), (keyCommitted, [])] }
  have hsnap : snapshotLastIndex ((Codec.ofCountable StoredSnapshot).shorten [snapshot]) db =
      .ok (some 3) := rfl
  have hcommitted : LogStore.storedCommitted
      ((Codec.ofCountable (Option LogId)).shorten [some (blankAt 4).logId]) db =
      .ok (some (blankAt 4).logId) := rfl
  have hmarker : LogStore.lastPurged (.ofCountable LogId) { db := db } = .ok none := rfl
  refine (purge_retry_iff hsnap hcommitted hmarker (fun p hp => by cases hp)).mpr
    ⟨Or.inl ⟨?_, by decide, fun c hc => ⟨4, Or.inr rfl, ?_⟩⟩, fun bytes hbytes => ?_⟩
  · rintro ⟨first, hfirst, hlt⟩
    obtain rfl : 4 = first := Option.some.inj hfirst
    exact absurd hlt (by decide)
  · obtain rfl := Option.some.inj hc
    exact le_rfl
  · obtain rfl : [] = bytes := Option.some.inj hbytes
    exact ⟨blankAt 4, rfl, by decide⟩

/-- A log with the entries 1 and 2, on a node with a snapshot at 3, which
stopped after the first write of the purge up to 3. Startup repair
changes nothing, and neither does purging again: the entries stay, and
the log state reports a log that ends before its marker. -/
theorem purge_not_retried :
    ∃ (entryCodec : Codec Entry) (logIdCodec : Codec LogId) (storedCodec : Codec StoredSnapshot)
      (committedCodec : Codec (Option LogId)) (db stopped whole : Storage)
      (writes : List Storage.Write),
      snapshotLastIndex storedCodec db = .ok (some 3) ∧
      purgeWrites logIdCodec db (blankAt 3).logId = .ok writes ∧
      LogStore.markPurged logIdCodec db (blankAt 3).logId = .ok whole ∧ whole.log = ∅ ∧
      stopped = db.writeAll (writes.take 1) ∧
      recoverConsistency storedCodec committedCodec stopped = (stopped, .ok ()) ∧
      LogStore.purge logIdCodec { db := stopped } (blankAt 3).logId = .ok { db := stopped } ∧
      stopped.log.keys = [1, 2] ∧
      LogStore.getLogState entryCodec logIdCodec { db := stopped } =
        .ok ⟨some (blankAt 3).logId, some (blankAt 2).logId⟩ ∧
      ¬(blankAt 3).logId ≤ (blankAt 2).logId := by
  let snapshot : StoredSnapshot := ⟨⟨some (blankAt 3).logId, {}, "3-1"⟩, []⟩
  let db : Storage :=
    { log := .ofList [(1, []), (2, [0])], records := .ofList [(keySnapshot, [])] }
  exact ⟨(Codec.ofCountable Entry).shorten [blankAt 1, blankAt 2],
    (Codec.ofCountable LogId).shorten [(blankAt 3).logId],
    (Codec.ofCountable StoredSnapshot).shorten [snapshot], .ofCountable _, db,
    db.put keyPurged [], (db.put keyPurged []).purgeLogUpto 3,
    [.put keyPurged [], .purgeLogUpto 3], rfl, rfl, rfl, rfl, rfl, rfl, rfl, rfl, rfl, by decide⟩

end Retry

end HermesMq
