import HermesMq.LogStore
import HermesMq.SnapshotStore

/-!
# Startup repair

`recover_consistency` runs on the database before Raft reads it, after a
crash or the loss of part of the disk. It looks at four records that may
disagree: the log, the snapshot, the purge marker and the committed
pointer. A log whose front is ahead of the snapshot is dropped with its
marker, and then a committed pointer that nothing can serve.

Only the two ends of the log are looked at, and the marker only with the
log it belongs to. So a repaired store can still have a hole below the
committed pointer, or a marker above the snapshot; `recover_readable_iff`
says from which stores.
-/

namespace HermesMq

section Recovery

-- `postcard` at the types of the records the repair reads
variable (storedCodec : Codec StoredSnapshot) (committedCodec : Codec (Option LogId))
  (logIdCodec : Codec LogId)

/-! ## The code -/

/-- Where replay begins, as the code computes it. -/
def baseNext (snapIndex : Option Nat) : Nat := (snapIndex.map wrapSucc).getD 0

/-- Drop a log whose front is ahead of where replay begins, and its
purge marker. -/
def dropOrphanedPrefix (baseNext : Nat) (db : Storage) : Storage :=
  match db.firstLogIndex with
  | none => db
  | some first =>
      if first > baseNext then
        let db := match db.lastLogIndex with
          | some last => db.purgeLogUpto last
          | none => db
        db.delete keyPurged
      else db

/-- The highest index the snapshot or the log can serve. -/
def reachable (snapIndex : Option Nat) (db : Storage) : Option Nat :=
  (snapIndex.toList ++ db.lastLogIndex.toList).max?

/-- Make the persisted state self-consistent before Raft reads it. The
database is returned in either case: an error does not undo the writes
before it. -/
def recoverConsistency (db : Storage) : Storage × Except String Unit :=
  match snapshotLastIndex storedCodec db with
  | .error e => (db, .error e)
  | .ok snapIndex =>
      let db := dropOrphanedPrefix (baseNext snapIndex) db
      match LogStore.storedCommitted committedCodec db with
      | .error e => (db, .error e)
      | .ok none => (db, .ok ())
      | .ok (some c) =>
          if (reachable snapIndex db).all (c.index > ·) then (db.delete keyCommitted, .ok ())
          else (db, .ok ())

/-! ## What the repair does -/

/-- Where replay begins: after the snapshot. -/
def replayStart (snapIndex : Option Nat) : Nat := (snapIndex.map (· + 1)).getD 0

/-- The log starts ahead of where replay begins. -/
def Orphaned (next : Nat) (db : Storage) : Prop :=
  ∃ first, db.firstLogIndex = some first ∧ next < first

/-- The pointer is above everything that can be served. -/
def Unbacked (snapIndex : Option Nat) (db : Storage) (c : LogId) : Prop :=
  ∀ r, snapIndex = some r ∨ db.lastLogIndex = some r → r < c.index

variable {storedCodec committedCodec logIdCodec} {db db' : Storage} {snap : Option Nat}
  {committed : Option LogId} {next : Nat}

/-- The two agree as long as the snapshot is below `u64::MAX`; there the sum
wraps to zero. -/
theorem baseNext_eq (h : ∀ i, snap = some i → i < u64Max) : baseNext snap = replayStart snap := by
  cases snap with
  | none => rfl
  | some i => exact wrapSucc_of_lt (h i rfl)

theorem reachable_all_iff (c : LogId) :
    (reachable snap db).all (c.index > ·) = true ↔ Unbacked snap db c := by
  rw [reachable]
  cases hmax : (snap.toList ++ db.lastLogIndex.toList).max? with
  | none =>
      rw [List.max?_eq_none_iff, List.append_eq_nil_iff] at hmax
      refine ⟨fun _ r hr => ?_, fun _ => rfl⟩
      rcases hr with rfl | hr
      · cases hmax.1
      · rw [hr] at hmax
        cases hmax.2
  | some r =>
      obtain ⟨hmem, hle⟩ := List.max?_eq_some_iff.mp hmax
      simp only [List.mem_append, Option.mem_toList] at hmem hle
      simp only [Option.all_some, decide_eq_true_eq]
      exact ⟨fun hlt r' hr' => (hle r' hr').trans_lt hlt, fun h => h r hmem⟩

theorem dropOrphanedPrefix_of_orphaned (h : Orphaned next db) (key : String) :
    (dropOrphanedPrefix next db).log = ∅ ∧
      (dropOrphanedPrefix next db).get key =
        if key = keyPurged then none else db.get key := by
  obtain ⟨first, hfirst, hlt⟩ := h
  rw [dropOrphanedPrefix, hfirst]
  simp only [gt_iff_lt, hlt, if_true]
  cases hlast : db.lastLogIndex with
  | none =>
      obtain ⟨⟨bytes, hbytes⟩, -⟩ := OrdMap.firstKey?_eq_some.mp hfirst
      rw [OrdMap.lastKey?_eq_none.mp hlast first] at hbytes
      cases hbytes
  | some last =>
      refine ⟨Storage.purgeLogUpto_last hlast, ?_⟩
      rw [Storage.get_delete, Storage.get_purgeLogUpto]

theorem dropOrphanedPrefix_of_not (h : ¬Orphaned next db) : dropOrphanedPrefix next db = db := by
  unfold dropOrphanedPrefix
  split
  · rfl
  · rename_i first hfirst
    exact if_neg fun hlt => h ⟨first, hfirst, hlt⟩

/-- Dropping the log leaves every record but the purge marker alone. -/
theorem dropOrphanedPrefix_get {key : String} (hkey : key ≠ keyPurged) :
    (dropOrphanedPrefix next db).get key = db.get key := by
  by_cases h : Orphaned next db
  · rw [(dropOrphanedPrefix_of_orphaned h key).2, if_neg hkey]
  · rw [dropOrphanedPrefix_of_not h]

open Classical in
/-- The outcome of the repair on a store whose snapshot and committed
pointer can be read. -/
theorem recoverConsistency_eq (hsnap : snapshotLastIndex storedCodec db = .ok snap)
    (hcommitted : LogStore.storedCommitted committedCodec db = .ok committed) :
    recoverConsistency storedCodec committedCodec db =
      (if ∃ c, committed = some c ∧ Unbacked snap (dropOrphanedPrefix (baseNext snap) db) c then
        (dropOrphanedPrefix (baseNext snap) db).delete keyCommitted
      else dropOrphanedPrefix (baseNext snap) db, .ok ()) := by
  have hsame : LogStore.storedCommitted committedCodec (dropOrphanedPrefix (baseNext snap) db) =
      .ok committed := by
    rw [← hcommitted, LogStore.storedCommitted, LogStore.storedCommitted, Storage.readCommitted,
      Storage.readCommitted, dropOrphanedPrefix_get (by decide)]
  rw [recoverConsistency, hsnap]
  simp only [hsame]
  cases committed with
  | none => simp
  | some c =>
      simp only [reachable_all_iff, Option.some.injEq, exists_eq_left']
      split_ifs <;> rfl

/-- The records the repair does not look for are left alone. -/
theorem recoverConsistency_get (hsnap : snapshotLastIndex storedCodec db = .ok snap)
    (hcommitted : LogStore.storedCommitted committedCodec db = .ok committed)
    (hrec : recoverConsistency storedCodec committedCodec db = (db', .ok ()))
    {key : String} (hpurged : key ≠ keyPurged) (hkey : key ≠ keyCommitted) :
    db'.get key = db.get key := by
  rw [recoverConsistency_eq hsnap hcommitted, Prod.mk.injEq] at hrec
  rw [← hrec.1]
  split_ifs
  · rw [Storage.get_delete, if_neg hkey, dropOrphanedPrefix_get hpurged]
  · exact dropOrphanedPrefix_get hpurged

/-- The log and its marker after the repair. -/
theorem recoverConsistency_log (hsnap : snapshotLastIndex storedCodec db = .ok snap)
    (hcommitted : LogStore.storedCommitted committedCodec db = .ok committed)
    (hrec : recoverConsistency storedCodec committedCodec db = (db', .ok ())) :
    (Orphaned (baseNext snap) db → db'.log = ∅ ∧ db'.get keyPurged = none) ∧
      (¬Orphaned (baseNext snap) db →
        db'.log = db.log ∧ db'.get keyPurged = db.get keyPurged) := by
  rw [recoverConsistency_eq hsnap hcommitted, Prod.mk.injEq] at hrec
  have hdrop : db'.log = (dropOrphanedPrefix (baseNext snap) db).log ∧
      db'.get keyPurged = (dropOrphanedPrefix (baseNext snap) db).get keyPurged := by
    rw [← hrec.1]
    split_ifs
    · exact ⟨rfl, by rw [Storage.get_delete, if_neg (by decide)]⟩
    · exact ⟨rfl, rfl⟩
  rw [hdrop.1, hdrop.2]
  constructor
  · intro h
    obtain ⟨hlog, hget⟩ := dropOrphanedPrefix_of_orphaned h keyPurged
    exact ⟨hlog, hget.trans (if_pos rfl)⟩
  · intro h
    rw [dropOrphanedPrefix_of_not h]
    exact ⟨rfl, rfl⟩

/-- The committed pointer after the repair: gone exactly if nothing that
is left can serve it. -/
theorem recoverConsistency_committed (hsnap : snapshotLastIndex storedCodec db = .ok snap)
    (hcommitted : LogStore.storedCommitted committedCodec db = .ok committed)
    (hrec : recoverConsistency storedCodec committedCodec db = (db', .ok ())) :
    ((∃ c, committed = some c ∧ Unbacked snap db' c) → db'.readCommitted = none) ∧
      ((∀ c, committed = some c → ¬Unbacked snap db' c) →
        db'.readCommitted = db.readCommitted) := by
  rw [recoverConsistency_eq hsnap hcommitted, Prod.mk.injEq] at hrec
  have hlast : db'.lastLogIndex = (dropOrphanedPrefix (baseNext snap) db).lastLogIndex := by
    rw [← hrec.1]
    split_ifs <;> rfl
  have hun : ∀ c, Unbacked snap db' c ↔ Unbacked snap (dropOrphanedPrefix (baseNext snap) db) c :=
    fun c => by simp only [Unbacked, hlast]
  simp only [hun]
  rw [← hrec.1]
  constructor
  · intro h
    rw [if_pos h, Storage.readCommitted, Storage.get_delete, if_pos rfl]
  · intro h
    rw [if_neg fun ⟨c, hc, hun⟩ => h c hc hun]
    exact dropOrphanedPrefix_get (by decide)

/-- If the committed pointer stays, so does every record but the marker. -/
theorem recoverConsistency_get_of_backed (hsnap : snapshotLastIndex storedCodec db = .ok snap)
    (hcommitted : LogStore.storedCommitted committedCodec db = .ok committed)
    (hrec : recoverConsistency storedCodec committedCodec db = (db', .ok ()))
    (hbacked : ∀ c, committed = some c → ¬Unbacked snap db' c) {key : String}
    (hkey : key ≠ keyPurged) : db'.get key = db.get key := by
  by_cases hcommit : key = keyCommitted
  · subst hcommit
    exact (recoverConsistency_committed hsnap hcommitted hrec).2 hbacked
  · exact recoverConsistency_get hsnap hcommitted hrec hkey hcommit

theorem not_unbacked_iff {c : LogId} :
    ¬Unbacked snap db c ↔ ∃ r, (snap = some r ∨ db.lastLogIndex = some r) ∧ c.index ≤ r := by
  simp only [Unbacked, not_forall, not_lt, exists_prop]

/-! ## Healthy stores -/

/-- A log that replay can start on, and a committed pointer that the
snapshot or the log can serve. -/
structure Healthy (snap : Option Nat) (committed : Option LogId) (db : Storage) : Prop where
  front : ∀ first, db.firstLogIndex = some first → first ≤ replayStart snap
  backed : ∀ c, committed = some c →
    ∃ r, (snap = some r ∨ db.lastLogIndex = some r) ∧ c.index ≤ r

theorem Healthy.unchanged (h : Healthy snap committed db)
    (hroom : ∀ i, snap = some i → i < u64Max)
    (hsnap : snapshotLastIndex storedCodec db = .ok snap)
    (hcommitted : LogStore.storedCommitted committedCodec db = .ok committed) :
    recoverConsistency storedCodec committedCodec db = (db, .ok ()) := by
  have hfront : ¬Orphaned (baseNext snap) db := fun ⟨first, hfirst, hlt⟩ =>
    absurd (h.front first hfirst) (not_le.mpr (baseNext_eq hroom ▸ hlt))
  rw [recoverConsistency_eq hsnap hcommitted, dropOrphanedPrefix_of_not hfront, if_neg]
  rintro ⟨c, hc, hun⟩
  obtain ⟨r, hr, hle⟩ := h.backed c hc
  exact absurd (hun r hr) (not_lt.mpr hle)

/-- The code's start of replay is never past the true one. -/
theorem baseNext_le : baseNext snap ≤ replayStart snap := by
  cases snap with
  | none => exact le_rfl
  | some i => exact Nat.mod_le ..

/-- Whatever the repair leaves is healthy. -/
theorem recoverConsistency_healthy (hsnap : snapshotLastIndex storedCodec db = .ok snap)
    (hcommitted : LogStore.storedCommitted committedCodec db = .ok committed)
    (hrec : recoverConsistency storedCodec committedCodec db = (db', .ok ())) :
    ∃ committed', LogStore.storedCommitted committedCodec db' = .ok committed' ∧
      Healthy snap committed' db' := by
  obtain ⟨horphaned, hfine⟩ := recoverConsistency_log hsnap hcommitted hrec
  obtain ⟨hdropped, hkept⟩ := recoverConsistency_committed hsnap hcommitted hrec
  have hfront : ∀ first, db'.firstLogIndex = some first → first ≤ replayStart snap := by
    intro first hfirst
    by_cases h : Orphaned (baseNext snap) db
    · rw [Storage.firstLogIndex, (horphaned h).1] at hfirst
      cases hfirst
    · rw [Storage.firstLogIndex, (hfine h).1] at hfirst
      exact (not_lt.mp fun hlt => h ⟨first, hfirst, hlt⟩).trans baseNext_le
  by_cases hun : ∃ c, committed = some c ∧ Unbacked snap db' c
  · refine ⟨none, by rw [LogStore.storedCommitted, hdropped hun], hfront, ?_⟩
    rintro c ⟨⟩
  · have hbacked : ∀ c, committed = some c → ¬Unbacked snap db' c := fun c hc h => hun ⟨c, hc, h⟩
    refine ⟨committed, ?_, hfront, fun c hc => ?_⟩
    · rw [← hcommitted, LogStore.storedCommitted, hkept hbacked, LogStore.storedCommitted]
    · exact not_unbacked_iff.mp (hbacked c hc)

/-- A reader is never told of a commit above the end of the log. -/
theorem readCommitted_le_last {s : LogStore} {c : LogId}
    (h : LogStore.readCommitted committedCodec s = .ok (some c)) :
    ∃ last, s.lastIndex = some last ∧ c.index ≤ last := by
  unfold LogStore.readCommitted at h
  cases hstored : LogStore.storedCommitted committedCodec s.db with
  | error e =>
      rw [hstored] at h
      cases h
  | ok stored =>
      cases stored with
      | none =>
          rw [hstored] at h
          cases h
      | some committed =>
          cases hlast : s.lastIndex with
          | none =>
              simp only [hstored, hlast, bind, Except.bind] at h
              cases h
          | some last =>
              simp only [hstored, hlast, bind, Except.bind] at h
              split_ifs at h with hle
              · cases h
                exact ⟨last, rfl, hle⟩
              · cases h

/-- With a snapshot below `u64::MAX` the repair is minimal and idempotent. It
leaves a healthy store as it is; it drops the log and its marker only if the
log starts ahead of where replay begins, and the committed pointer only if
nothing that is left can serve it; it touches no other record; and a second
repair finds nothing to do. -/
theorem recover_minimal_idempotent (hsnap : snapshotLastIndex storedCodec db = .ok snap)
    (hroom : ∀ i, snap = some i → i < u64Max)
    (hcommitted : LogStore.storedCommitted committedCodec db = .ok committed) :
    ∃ db', recoverConsistency storedCodec committedCodec db = (db', .ok ()) ∧
      (Healthy snap committed db → db' = db) ∧
      (Orphaned (replayStart snap) db → db'.log = ∅ ∧ db'.get keyPurged = none) ∧
      (¬Orphaned (replayStart snap) db →
        db'.log = db.log ∧ db'.get keyPurged = db.get keyPurged) ∧
      ((∃ c, committed = some c ∧ Unbacked snap db' c) → db'.readCommitted = none) ∧
      ((∀ c, committed = some c → ¬Unbacked snap db' c) →
        db'.readCommitted = db.readCommitted) ∧
      (∀ key, key ≠ keyPurged → key ≠ keyCommitted → db'.get key = db.get key) ∧
      db'.readVote = db.readVote ∧ db'.get keySnapshot = db.get keySnapshot ∧
      recoverConsistency storedCodec committedCodec db' = (db', .ok ()) ∧
      ∀ c, LogStore.readCommitted committedCodec { db := db' } = .ok (some c) →
        ∃ last, db'.lastLogIndex = some last ∧ c.index ≤ last := by
  obtain ⟨db', hrec⟩ : ∃ db', recoverConsistency storedCodec committedCodec db = (db', .ok ()) :=
    ⟨_, recoverConsistency_eq hsnap hcommitted⟩
  obtain ⟨horphaned, hfine⟩ := recoverConsistency_log hsnap hcommitted hrec
  rw [baseNext_eq hroom] at horphaned hfine
  obtain ⟨hdropped, hkept⟩ := recoverConsistency_committed hsnap hcommitted hrec
  obtain ⟨committed', hcommitted', hhealthy⟩ := recoverConsistency_healthy hsnap hcommitted hrec
  have hget : ∀ key, key ≠ keyPurged → key ≠ keyCommitted → db'.get key = db.get key :=
    fun key => recoverConsistency_get hsnap hcommitted hrec
  have hsnap' : snapshotLastIndex storedCodec db' = .ok snap := by
    rw [← hsnap, snapshotLastIndex, snapshotLastIndex, hget _ (by decide) (by decide)]
  refine ⟨db', hrec, fun h => ?_, horphaned, hfine, hdropped, hkept, hget,
    hget _ (by decide) (by decide), hget _ (by decide) (by decide),
    hhealthy.unchanged hroom hsnap' hcommitted', fun c hc => ?_⟩
  · rw [h.unchanged hroom hsnap hcommitted] at hrec
    exact (Prod.mk.inj hrec).1.symm
  · obtain ⟨last, hlast, hle⟩ := readCommitted_le_last hc
    refine ⟨last, ?_, hle⟩
    rw [← hlast, LogStore.lastIndex]
    cases db'.lastLogIndex <;> rfl

/-- A codec that can be evaluated on the pointer to index 2. -/
noncomputable def pointerCodec : Codec (Option LogId) :=
  (Codec.ofCountable (Option LogId)).shorten [some (blankAt 2).logId]

/-- A store without a snapshot whose committed pointer is at index 2. -/
def committedAtTwo (indices : List Nat) : Storage where
  log := .ofList (indices.map fun i => (i, []))
  records := .ofList [(keyCommitted, []), (keyVote, [7])]

/-- A log that lost its front is dropped, and the vote stays. -/
theorem recover_minimal_idempotent_lost_front :
    ∃ db', recoverConsistency (.ofCountable _) pointerCodec (committedAtTwo [1, 2]) =
        (db', .ok ()) ∧
      db'.log = ∅ ∧ db'.readCommitted = none ∧ db'.readVote = some [7] := by
  have hsnap : snapshotLastIndex (.ofCountable _) (committedAtTwo [1, 2]) = .ok none := rfl
  have hcommitted : LogStore.storedCommitted pointerCodec (committedAtTwo [1, 2]) =
      .ok (some (blankAt 2).logId) := rfl
  obtain ⟨db', hrec, -, horphaned, -, hdropped, -, -, hvote, -⟩ :=
    recover_minimal_idempotent hsnap (by rintro i ⟨⟩) hcommitted
  have hlog := (horphaned ⟨1, rfl, by decide⟩).1
  refine ⟨db', hrec, hlog, hdropped ⟨_, rfl, ?_⟩, hvote.trans rfl⟩
  rintro r (hr | hr)
  · cases hr
  · rw [Storage.lastLogIndex, hlog] at hr
    cases hr

/-- A snapshot at `u64::MAX` and a log that starts below it: the start of
replay wraps to zero, and a healthy store loses its log and its marker. -/
theorem recover_wipes_at_max :
    ∃ (storedCodec : Codec StoredSnapshot) (committedCodec : Codec (Option LogId))
      (db db' : Storage),
      snapshotLastIndex storedCodec db = .ok (some u64Max) ∧
      LogStore.storedCommitted committedCodec db = .ok none ∧
      db.log.keys = [1] ∧ db.get keyPurged = some [7] ∧ Healthy (some u64Max) none db ∧
      recoverConsistency storedCodec committedCodec db = (db', .ok ()) ∧
      db'.log = ∅ ∧ db'.get keyPurged = none := by
  let snapshot : StoredSnapshot := ⟨⟨some ⟨⟨1, 1⟩, u64Max⟩, {}, "1-1"⟩, []⟩
  let db : Storage :=
    { log := .ofList [(1, [])], records := .ofList [(keyPurged, [7]), (keySnapshot, [])] }
  have hhealthy : Healthy (some u64Max) none db := by
    refine ⟨fun first hfirst => ?_, fun c hc => by cases hc⟩
    obtain rfl : 1 = first := Option.some.inj hfirst
    decide
  exact ⟨(Codec.ofCountable StoredSnapshot).shorten [snapshot], .ofCountable _, db,
    { records := .ofList [(keySnapshot, [])] }, rfl, rfl, rfl, rfl, hhealthy, rfl, rfl, rfl⟩

/-! ## Readable stores -/

variable (storedCodec committedCodec logIdCodec) in
/-- What replay and the log state rely on: every entry from the snapshot
up to the committed pointer is there, and the purge marker is covered by
the snapshot. -/
structure Readable (snap : Option Nat) (db : Storage) : Prop where
  backed : ∀ c, LogStore.storedCommitted committedCodec db = .ok (some c) →
    ∀ i, replayStart snap ≤ i → i ≤ c.index → db.log.contains i = true
  marker : ∀ p, LogStore.lastPurged logIdCodec { db := db } = .ok (some p) →
    ∃ s, snap = some s ∧ p.index ≤ s

variable (committedCodec logIdCodec) in
/-- The damage the repair can deal with: a log that starts ahead of where
replay begins; or else no hole between there and a committed pointer
inside the log, and a purge marker the snapshot covers. -/
def Repairable (snap : Option Nat) (db : Storage) : Prop :=
  Orphaned (baseNext snap) db ∨
    ((∀ c last, LogStore.storedCommitted committedCodec db = .ok (some c) →
      db.lastLogIndex = some last → c.index ≤ last →
      ∀ i, replayStart snap ≤ i → i ≤ c.index → db.log.contains i = true) ∧
    (∀ p, LogStore.lastPurged logIdCodec { db := db } = .ok (some p) →
      ∃ s, snap = some s ∧ p.index ≤ s))

/-- A repair that returns has read the snapshot and the committed
pointer. -/
theorem recoverConsistency_reads
    (hrec : recoverConsistency storedCodec committedCodec db = (db', .ok ())) :
    ∃ snap committed, snapshotLastIndex storedCodec db = .ok snap ∧
      LogStore.storedCommitted committedCodec db = .ok committed := by
  rw [recoverConsistency] at hrec
  cases hsnap : snapshotLastIndex storedCodec db with
  | error e =>
      rw [hsnap] at hrec
      cases (Prod.mk.inj hrec).2
  | ok snap =>
      refine ⟨snap, ?_⟩
      rw [hsnap] at hrec
      have hsame : LogStore.storedCommitted committedCodec
          (dropOrphanedPrefix (baseNext snap) db) = LogStore.storedCommitted committedCodec db := by
        rw [LogStore.storedCommitted, LogStore.storedCommitted, Storage.readCommitted,
          Storage.readCommitted, dropOrphanedPrefix_get (by decide)]
      cases hcommitted : LogStore.storedCommitted committedCodec db with
      | error e =>
          simp only [hsame, hcommitted] at hrec
          cases (Prod.mk.inj hrec).2
      | ok committed => exact ⟨committed, rfl, rfl⟩

/-- What the snapshot covers, replay does not need. -/
theorem lt_replayStart {s i : Nat} (h : i ≤ s) : i < replayStart (some s) := Nat.lt_succ_of_le h

theorem Healthy.backed_of_covered {c : LogId} (h : Healthy snap (some c) db)
    (hlog : ∀ last, db.lastLogIndex = some last → c.index ≤ last →
      ∀ i, replayStart snap ≤ i → i ≤ c.index → db.log.contains i = true)
    (i : Nat) (hlo : replayStart snap ≤ i) (hhi : i ≤ c.index) : db.log.contains i = true := by
  obtain ⟨r, hr | hr, hle⟩ := h.backed c rfl
  · subst hr
    exact absurd hlo (not_le.mpr (lt_replayStart (hhi.trans hle)))
  · exact hlog r hr hle i hlo hhi

variable (logIdCodec) in
/-- After a repair that returns, the store is readable exactly if the
damage was of the kind the repair deals with. -/
theorem recover_readable_iff
    (hrec : recoverConsistency storedCodec committedCodec db = (db', .ok ())) :
    ∃ snap, snapshotLastIndex storedCodec db = .ok snap ∧
      snapshotLastIndex storedCodec db' = .ok snap ∧
      (Readable committedCodec logIdCodec snap db' ↔
        Repairable committedCodec logIdCodec snap db) := by
  obtain ⟨snap, committed, hsnap, hcommitted⟩ := recoverConsistency_reads hrec
  obtain ⟨horphaned, hfine⟩ := recoverConsistency_log hsnap hcommitted hrec
  obtain ⟨hdropped, hkept⟩ := recoverConsistency_committed hsnap hcommitted hrec
  obtain ⟨committed', hcommitted', hhealthy⟩ := recoverConsistency_healthy hsnap hcommitted hrec
  refine ⟨snap, hsnap, ?_, ?_⟩
  · rw [← hsnap, snapshotLastIndex, snapshotLastIndex,
      recoverConsistency_get hsnap hcommitted hrec (by decide) (by decide)]
  by_cases horph : Orphaned (baseNext snap) db
  · -- the log is gone, so a pointer that is left is within the snapshot
    obtain ⟨hlog, hmarker⟩ := horphaned horph
    refine iff_of_true ⟨fun c hc => ?_, fun p hp => ?_⟩ (Or.inl horph)
    · rw [hc] at hcommitted'
      obtain rfl := Except.ok.inj hcommitted'
      refine hhealthy.backed_of_covered fun last hlast => ?_
      rw [Storage.lastLogIndex, hlog] at hlast
      cases hlast
    · rw [LogStore.lastPurged, hmarker] at hp
      cases hp
  · obtain ⟨hlog, hmarker⟩ := hfine horph
    have hpurged : LogStore.lastPurged logIdCodec { db := db' } =
        LogStore.lastPurged logIdCodec { db := db } := by
      rw [LogStore.lastPurged, LogStore.lastPurged, hmarker]
    have hlast : db'.lastLogIndex = db.lastLogIndex := congrArg OrdMap.lastKey? hlog
    constructor
    · intro h
      refine Or.inr ⟨fun c last hc hcl hle => ?_, hpurged ▸ h.marker⟩
      rw [← hlog]
      obtain rfl := Except.ok.inj (hcommitted.symm.trans hc)
      refine h.backed c ?_
      rw [← hc, LogStore.storedCommitted, LogStore.storedCommitted, hkept]
      rintro c' hc' hun
      obtain rfl := Option.some.inj hc'
      exact absurd (hun last (Or.inr (hlast.trans hcl))) (not_lt.mpr hle)
    · rintro (h | ⟨hbacked, hmarked⟩)
      · exact absurd h horph
      · refine ⟨fun c hc => ?_, hpurged ▸ hmarked⟩
        obtain rfl := Except.ok.inj (hcommitted'.symm.trans hc)
        refine hhealthy.backed_of_covered fun last hcl hle => ?_
        rw [hlog]
        refine hbacked c last ?_ (hlast.symm.trans hcl) hle
        by_cases hun : ∃ c, committed = some c ∧ Unbacked snap db' c
        · rw [LogStore.storedCommitted, hdropped hun] at hc
          cases hc
        · rw [← hc, LogStore.storedCommitted, LogStore.storedCommitted,
            hkept fun c hc h => hun ⟨c, hc, h⟩]

/-- A log without holes under its committed pointer is readable. -/
theorem recover_readable_full_log :
    ∃ db', recoverConsistency (.ofCountable _) pointerCodec (committedAtTwo [0, 1, 2]) =
        (db', .ok ()) ∧
      Readable pointerCodec (.ofCountable LogId) none db' := by
  have hrec : recoverConsistency (.ofCountable _) pointerCodec (committedAtTwo [0, 1, 2]) =
      (committedAtTwo [0, 1, 2], .ok ()) := rfl
  obtain ⟨snap, hsnap, -, hiff⟩ := recover_readable_iff (.ofCountable LogId) hrec
  obtain rfl : none = snap := Except.ok.inj hsnap
  have hfull : ∀ i ≤ 2, (committedAtTwo [0, 1, 2]).log.contains i = true := by decide
  refine ⟨_, hrec, hiff.mpr (Or.inr ⟨fun c last hc hlast hle i _ hi => ?_, fun p hp => ?_⟩)⟩
  · obtain rfl : 2 = last := Option.some.inj hlast
    exact hfull i (hi.trans hle)
  · cases hp

/-- Two stores the repair returns from and leaves as they are: a log with
a hole under its committed pointer, and a purge marker that outlived the
log and the snapshot, so that the log state tells of an entry nobody
has. -/
theorem recover_leaves_damage :
    ∃ (storedCodec : Codec StoredSnapshot) (committedCodec : Codec (Option LogId))
      (entryCodec : Codec Entry) (logIdCodec : Codec LogId) (holed marked : Storage),
      (recoverConsistency storedCodec committedCodec holed = (holed, .ok ()) ∧
        snapshotLastIndex storedCodec holed = .ok none ∧
        LogStore.storedCommitted committedCodec holed = .ok (some ⟨⟨1, 1⟩, 2⟩) ∧
        holed.log.contains 1 = false) ∧
      (recoverConsistency storedCodec committedCodec marked = (marked, .ok ()) ∧
        snapshotLastIndex storedCodec marked = .ok none ∧ marked.log = ∅ ∧
        LogStore.getLogState entryCodec logIdCodec { db := marked } =
          .ok ⟨some ⟨⟨1, 1⟩, 2⟩, some ⟨⟨1, 1⟩, 2⟩⟩) := by
  refine ⟨.ofCountable _, pointerCodec, .ofCountable _,
    (Codec.ofCountable LogId).shorten [(blankAt 2).logId], committedAtTwo [0, 2],
    { records := .ofList [(keyPurged, [])] }, ⟨rfl, rfl, rfl, rfl⟩, rfl, rfl, rfl, rfl⟩

end Recovery

end HermesMq
