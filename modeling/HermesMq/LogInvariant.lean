import HermesMq.LogSystem
import HermesMq.WriteBehind

/-!
# Where the entries of the log are

The database has the entries of the log that are not on their way and
whose write did not fail (`LogInv`). A call that waits for its barrier
finds the flusher idle and the queue empty when the barrier is answered
(`BarrierAt`). Together they hold in every state of every run
(`LogOk.of_run`).

In a run without storage errors the two halves of the log store are a
write-behind map of the encoded entries, with the flusher as its writer
(`LogWhole.of_run`). With errors they need not be: a purge up to
`u64::MAX` computes the first index it keeps as zero, so what a failed
write left in the pending map stays there.
-/

namespace HermesMq

/-! ## Where the entries are -/

def FlushJob.entries : FlushJob → List (Nat × Bytes)
  | .append entries _ => entries
  | .barrier _ => []

def LogCall.unsent : LogCall → List (Nat × Bytes)
  | .appending batch _ => batch
  | _ => []

@[simp] theorem LogCall.unsent_none : LogCall.none.unsent = [] := rfl

theorem LogCall.unsent_of_barrier {call : LogCall} {n : Nat} (h : call.barrier? = some n) :
    call.unsent = [] := by
  cases call with
  | appending => cases h
  | none | truncating | purging | flushing => rfl

namespace Flusher

def batch : Flusher → FlushBatch
  | .idle => {}
  | .collecting batch | .ready batch | .written batch => batch

/-- The entries of the batch that are not written yet. -/
def toWrite : Flusher → List (Nat × Bytes)
  | .idle | .written _ => []
  | .collecting batch | .ready batch => batch.entries

/-- The entries of the batch that are written and still pending. -/
def toRemove : Flusher → List (Nat × Bytes)
  | .written batch => batch.entries
  | _ => []

theorem receive_toWrite (batch : FlushBatch) (job : FlushJob) :
    (batch.receive job).toWrite = batch.entries ++ job.entries := by
  cases job with
  | append entries callback =>
      simp only [FlushBatch.receive]
      split_ifs <;> rfl
  | barrier done => simp [FlushBatch.receive, toWrite, FlushJob.entries]

theorem receive_toRemove (batch : FlushBatch) (job : FlushJob) :
    (batch.receive job).toRemove = [] := by
  cases job with
  | append entries callback =>
      simp only [FlushBatch.receive]
      split_ifs <;> rfl
  | barrier done => rfl

end Flusher

namespace LogSystem

/-- The entries on their way to the database, first in first out. -/
def unwritten (s : LogSystem) : List (Nat × Bytes) :=
  s.store.flusher.toWrite ++ s.store.jobs.flatMap FlushJob.entries ++ s.call.unsent

/-- The bytes the two halves should hold together. -/
def bytes (entryCodec : Codec Entry) (s : LogSystem) : OrdMap Nat Bytes :=
  s.spec.entries.mapVals fun _ e => entryCodec.enc e

theorem bytes_get? (entryCodec : Codec Entry) (s : LogSystem) (i : Nat) :
    (s.bytes entryCodec).get? i = (s.spec.entries.get? i).map entryCodec.enc :=
  OrdMap.get?_mapVals ..

end LogSystem

/-! ## What the flusher does to them -/

namespace LogSystem

/-- A step of the flusher that neither writes nor removes an entry. -/
structure Quiet (s : LogSystem) (store : LogStore) : Prop where
  unwritten : { s with store := store }.unwritten = s.unwritten
  toRemove : store.flusher.toRemove = s.store.flusher.toRemove
  pending : store.pending = s.store.pending
  db : store.db = s.store.db
  ready : ∀ batch, s.store.flusher = .ready batch → batch.entries = []
  written : ∀ batch, s.store.flusher ≠ .written batch

theorem Quiet.failing {s : LogSystem} {store : LogStore} (h : s.Quiet store) (ok : Bool) :
    s.failing ok = ∅ := by
  unfold LogSystem.failing
  split
  · rename_i batch hf
    simp [h.ready batch hf]
  · rfl

theorem flush_cases {s : LogSystem} {ok : Bool} {store : LogStore}
    (h : LogStore.FlushMove ok s.store store) :
    s.Quiet store ∨
    (∃ batch, s.store.flusher = .ready batch ∧ ok = true ∧
      store = { s.store with db := s.store.db.appendLog batch.entries
                             flusher := .written batch }) ∨
    (∃ batch, s.store.flusher = .ready batch ∧ ok = false ∧
      store = s.store.complete batch false) ∨
    (∃ batch, s.store.flusher = .written batch ∧
      store = { s.store with
        pending := s.store.pending.eraseAll (batch.entries.map Prod.fst) }.complete batch true) := by
  cases h with
  | @receive job rest batch hjobs hf =>
      have hbatch : s.store.flusher.toWrite = batch.entries ∧
          s.store.flusher.toRemove = [] := by
        rcases hf with ⟨hf, rfl⟩ | hf <;> rw [hf] <;> exact ⟨rfl, rfl⟩
      refine Or.inl ⟨?_, ?_, rfl, rfl, fun b hb => ?_, fun b hb => ?_⟩
      · simp [unwritten, hbatch.1, hjobs, Flusher.receive_toWrite]
      · rw [hbatch.2, Flusher.receive_toRemove]
      · rcases hf with ⟨hf, -⟩ | hf <;> cases hf.symm.trans hb
      · rcases hf with ⟨hf, -⟩ | hf <;> cases hf.symm.trans hb
  | stop hf hjobs =>
      refine Or.inl ⟨?_, ?_, rfl, rfl, fun b hb => ?_, fun b hb => ?_⟩
      · simp [unwritten, hf, Flusher.toWrite]
      · rw [hf]
        rfl
      · cases hf.symm.trans hb
      · cases hf.symm.trans hb
  | skip hf hempty =>
      refine Or.inl ⟨?_, ?_, rfl, rfl, fun b hb => ?_, fun b hb => ?_⟩
      · simp [unwritten, hf, Flusher.toWrite, LogStore.complete, hempty]
      · rw [hf]
        rfl
      · obtain rfl := Flusher.ready.inj (hf.symm.trans hb)
        exact hempty
      · cases hf.symm.trans hb
  | write hf hok => exact Or.inr (Or.inl ⟨_, hf, hok, rfl⟩)
  | fail hf hok => exact Or.inr (Or.inr (Or.inl ⟨_, hf, hok, rfl⟩))
  | remove hf => exact Or.inr (Or.inr (Or.inr ⟨_, hf, rfl⟩))

end LogSystem

/-- The flusher has nothing left to do. -/
structure LogStore.Drained (s : LogStore) : Prop where
  jobs : s.jobs = []
  flusher : s.flusher = .idle

theorem LogStore.Drained.unwritten {s : LogSystem} (h : s.store.Drained)
    (hcall : s.call.unsent = []) : s.unwritten = [] := by
  rw [LogSystem.unwritten, h.jobs, h.flusher, hcall]
  rfl

/-! ## What an append adds -/

section Append

variable {entryCodec : Codec Entry} {s s' : LogSystem} {es : List Entry}

theorem LogSystem.bytes_append (hs : s'.spec = s.spec.append es) :
    s'.bytes entryCodec =
      (s.bytes entryCodec).insertAll (LogStore.encodeEntries entryCodec es) := by
  rw [LogSystem.bytes, hs, LogSpec.append, OrdMap.mapVals_insertAll, List.map_map]
  rfl

theorem LogSystem.unwritten_append {callback : Nat} (hcall : s.call = .none)
    (hstore : s'.store = s.store.insertPending (LogStore.encodeEntries entryCodec es))
    (hcall' : s'.call = .appending (LogStore.encodeEntries entryCodec es) callback) :
    s'.unwritten = s.unwritten ++ LogStore.encodeEntries entryCodec es := by
  simp [LogSystem.unwritten, hstore, hcall, hcall', LogStore.insertPending, LogCall.unsent]

variable (entryCodec)

theorem encodeEntries_keys (es : List Entry) :
    (LogStore.encodeEntries entryCodec es).map Prod.fst = es.map (·.logId.index) := by
  simp [LogStore.encodeEntries]

theorem LogSpec.Appendable.nodup_keys (hes : s.spec.Appendable es) :
    ((LogStore.encodeEntries entryCodec es).map Prod.fst).Nodup := by
  rw [encodeEntries_keys]
  exact hes.1.imp fun hlt => hlt.ne

/-- The log has none of the entries yet. -/
theorem LogSpec.Appendable.new_keys (hes : s.spec.Appendable es) (i : Nat)
    (hi : i ∈ (LogStore.encodeEntries entryCodec es).map Prod.fst) :
    (s.bytes entryCodec).get? i = none := by
  rw [encodeEntries_keys] at hi
  obtain ⟨e, he, rfl⟩ := List.mem_map.mp hi
  rw [LogSystem.bytes_get?, Option.map_eq_none_iff]
  refine Option.eq_none_iff_forall_ne_some.mpr fun e' he' => ?_
  exact absurd ((hes.2 e he).1 _ (OrdMap.mem_keys.mpr ⟨e', he'⟩)) (lt_irrefl _)

end Append

/-! ## The database -/

/-- What the database has of the log. -/
structure LogInv (entryCodec : Codec Entry) (logIdCodec : Codec LogId) (s : LogSystem) : Prop where
  stored : WriteBehind.Stored (s.bytes entryCodec) s.store.db.log s.store.flusher.toRemove
    s.unwritten s.lost
  purged : s.store.db.get keyPurged = s.spec.purged.map logIdCodec.enc
  above : ∀ p, s.spec.purged = some p → ∀ i ∈ s.spec.entries.keys, p.index < i
  keyed : ∀ i e, s.spec.entries.get? i = some e → e.logId.index = i

namespace LogInv

variable {entryCodec : Codec Entry} {logIdCodec : Codec LogId} {s s' : LogSystem}

theorem empty_start : LogInv entryCodec logIdCodec {} where
  stored := .start ∅
  purged := rfl
  above := by simp
  keyed := by simp

/-- The invariant only looks at the database, the plain map, and the
entries on their way. -/
theorem of_same (h : LogInv entryCodec logIdCodec s) (hspec : s'.spec = s.spec)
    (hwrite : s'.unwritten = s.unwritten)
    (hremove : s'.store.flusher.toRemove = s.store.flusher.toRemove) (hlost : s'.lost = s.lost)
    (hdb : s'.store.db = s.store.db) : LogInv entryCodec logIdCodec s' := by
  obtain ⟨hstored, hpurged, habove, hkeyed⟩ := h
  constructor
  · rw [hwrite, hremove, hlost, hdb, LogSystem.bytes, hspec]
    exact hstored
  · rw [hdb, hspec, hpurged]
  · rw [hspec]
    exact habove
  · rw [hspec]
    exact hkeyed

/-- The flusher keeps track of every entry. -/
theorem flush (h : LogInv entryCodec logIdCodec s) {ok : Bool} {store : LogStore}
    (hmove : LogStore.FlushMove ok s.store store) :
    LogInv entryCodec logIdCodec { s with store := store, lost := s.lost ∪ s.failing ok } := by
  have hstored := h.stored
  rcases LogSystem.flush_cases hmove with hq | ⟨batch, hf, rfl, rfl⟩ | ⟨batch, hf, rfl, rfl⟩ |
    ⟨batch, hf, rfl⟩
  · refine h.of_same rfl hq.unwritten hq.toRemove ?_ hq.db
    simp [hq.failing]
  · have hlost : s.lost ∪ s.failing true = s.lost := by simp [LogSystem.failing, hf]
    rw [hf, LogSystem.unwritten, hf, List.append_assoc] at hstored
    rw [hlost]
    exact ⟨hstored.write, h.purged, h.above, h.keyed⟩
  · have hlost : s.failing false = (batch.entries.map Prod.fst).toFinset := by
      simp [LogSystem.failing, hf]
    rw [hf, LogSystem.unwritten, hf, List.append_assoc] at hstored
    rw [hlost]
    exact ⟨hstored.fail, h.purged, h.above, h.keyed⟩
  · have hlost : s.lost ∪ s.failing ok = s.lost := by simp [LogSystem.failing, hf]
    rw [hf, LogSystem.unwritten, hf] at hstored
    rw [hlost]
    exact ⟨hstored.remove, h.purged, h.above, h.keyed⟩

/-- New entries go to the pending map and wait to be sent. -/
theorem append (h : LogInv entryCodec logIdCodec s) {es : List Entry} {callback : Nat}
    (hcall : s.call = .none) (hes : s.spec.Appendable es) (hs : s'.spec = s.spec.append es)
    (hstore : s'.store = s.store.insertPending (LogStore.encodeEntries entryCodec es))
    (hcall' : s'.call = .appending (LogStore.encodeEntries entryCodec es) callback)
    (hlost : s'.lost = s.lost) : LogInv entryCodec logIdCodec s' := by
  have hnd : (es.map (·.logId.index)).Nodup := hes.1.imp fun hlt => hlt.ne
  refine ⟨?_, ?_, ?_, ?_⟩
  · rw [LogSystem.bytes_append hs, LogSystem.unwritten_append hcall hstore hcall', hlost, hstore]
    exact h.stored.insert (hes.nodup_keys entryCodec) (hes.new_keys entryCodec)
  · rw [hstore, hs]
    exact h.purged
  · intro p hp i hi
    rw [hs] at hp hi
    rcases OrdMap.mem_keys_insertAll.mp hi with hi | hi
    · rw [List.map_map] at hi
      obtain ⟨e, he, rfl⟩ := List.mem_map.mp hi
      exact (hes.2 e he).2 p (Option.mem_toList.mpr hp)
    · exact h.above p hp i hi
  · intro i e he
    rw [hs] at he
    have hfst : (es.map fun e => (e.logId.index, e)).map Prod.fst = es.map (·.logId.index) := by
      simp
    rcases (OrdMap.get?_insertAll_eq_some (hfst ▸ hnd)).mp he with hmem | ⟨-, hold⟩
    · obtain ⟨e', -, heq⟩ := List.mem_map.mp hmem
      obtain ⟨rfl, rfl⟩ := Prod.mk.inj heq
      rfl
    · exact h.keyed i e hold

theorem stored_of_drained (h : LogInv entryCodec logIdCodec s) (hd : s.store.Drained)
    (hcall : s.call.unsent = []) :
    WriteBehind.Stored (s.bytes entryCodec) s.store.db.log [] [] s.lost := by
  have hstored := h.stored
  rw [hd.flusher, hd.unwritten hcall] at hstored
  exact hstored

/-- The database forgets the entries from the truncation point on. -/
theorem truncate (h : LogInv entryCodec logIdCodec s) (hd : s.store.Drained) {index n : Nat}
    (hcall : s.call = .truncating n index) :
    LogInv entryCodec logIdCodec
      { s with store := s.store.truncate index, call := .none
               spec := s.spec.truncate index
               writer := s.writer.filter fun i _ => i < index
               lost := s.lost.filter fun i => i < index } := by
  have hstored := h.stored_of_drained hd (by rw [hcall]; rfl)
  refine ⟨?_, h.purged, fun p hp i hi => ?_,
    fun i e he => h.keyed i e (OrdMap.get?_filter_eq_some.mp he).1⟩
  · have hfilter := hstored.filter fun i => i < index
    rw [LogSystem.unwritten, LogStore.truncate, hd.jobs, hd.flusher]
    simpa [LogSystem.bytes, LogSpec.truncate, OrdMap.mapVals_filter, Storage.truncateLogFrom,
      Flusher.toRemove, Flusher.toWrite, LogCall.unsent] using hfilter
  · obtain ⟨e, he⟩ := OrdMap.mem_keys.mp hi
    exact h.above p hp i (OrdMap.mem_keys.mpr ⟨e, (OrdMap.get?_filter_eq_some.mp he).1⟩)

/-- What `mark_purged` does to the log of the database: when the point is
not recorded because it is not new, the database has nothing to purge. -/
theorem purged_log (h : LogInv entryCodec logIdCodec s) {upto : LogId}
    (hupto : s.spec.Purgeable upto) :
    (if s.spec.purged.all (·.index < upto.index) then
      (s.store.db.put keyPurged (logIdCodec.enc upto)).purgeLogUpto upto.index
      else s.store.db).log = s.store.db.log.filter fun i _ => upto.index < i := by
  split_ifs with hnew
  · rfl
  · obtain ⟨p, hp, hle⟩ : ∃ p, s.spec.purged = some p ∧ ¬ p.index < upto.index := by
      cases hp : s.spec.purged with
      | none => simp [hp] at hnew
      | some p => exact ⟨p, rfl, by simpa [hp] using hnew⟩
    have hbelow := hupto p (Option.mem_toList.mpr hp)
    refine OrdMap.ext_get? fun i => Option.ext fun b => ?_
    rw [OrdMap.get?_filter_eq_some, iff_self_and]
    intro hb
    have hlog := h.stored.store_sub hb
    rw [LogSystem.bytes_get?] at hlog
    obtain ⟨e, he, -⟩ := Option.map_eq_some_iff.mp hlog
    have hi := h.above p hp i (OrdMap.mem_keys.mpr ⟨e, he⟩)
    exact decide_eq_true (by omega)

/-- The database forgets the entries up to the purge point. -/
theorem purge (h : LogInv entryCodec logIdCodec s) (hd : s.store.Drained) {n : Nat}
    {upto : LogId} {store : LogStore} (hcall : s.call = .purging n upto)
    (hupto : s.spec.Purgeable upto) (hstore : s.store.purge logIdCodec upto = .ok store) :
    LogInv entryCodec logIdCodec
      { s with store := store, call := .none
               spec := s.spec.purge upto
               writer := s.writer.filter fun i _ => upto.index < i
               lost := s.lost.filter fun i => upto.index < i } := by
  have hstored := h.stored_of_drained hd (by rw [hcall]; rfl)
  rw [LogStore.purge, LogStore.markPurged_eq logIdCodec h.purged] at hstore
  obtain rfl := Except.ok.inj hstore
  refine ⟨?_, ?_, fun p hp i hi => ?_,
    fun i e he => h.keyed i e (OrdMap.get?_filter_eq_some.mp he).1⟩
  · have hfilter := hstored.filter fun i => upto.index < i
    rw [LogSystem.unwritten, hd.jobs, hd.flusher, h.purged_log hupto]
    simpa [LogSystem.bytes, LogSpec.purge, OrdMap.mapVals_filter,
      Flusher.toRemove, Flusher.toWrite, LogCall.unsent] using hfilter
  · have hpurged := h.purged
    simp only [LogSpec.purge]
    split_ifs with hnew
    · exact OrdMap.get?_insert_self ..
    · exact hpurged
  · obtain ⟨e, he⟩ := OrdMap.mem_keys.mp hi
    obtain ⟨hold, hlt⟩ := OrdMap.get?_filter_eq_some.mp he
    simp only [LogSpec.purge] at hp
    split_ifs at hp with hnew
    · obtain rfl := Option.some.inj hp
      exact of_decide_eq_true hlt
    · exact h.above p hp i (OrdMap.mem_keys.mpr ⟨e, hold⟩)

end LogInv

/-! ## Barriers -/

def FlushJob.barriers : FlushJob → List Nat
  | .append .. => []
  | .barrier done => [done]

theorem Flusher.receive_barriers (batch : FlushBatch) (job : FlushJob) :
    (batch.receive job).batch.barriers = batch.barriers ++ job.barriers := by
  cases job with
  | append entries callback =>
      simp only [FlushBatch.receive]
      split_ifs <;> simp [Flusher.batch, FlushJob.barriers]
  | barrier done => rfl

/-- No barrier is on its way. -/
structure LogStore.NoBarrier (s : LogStore) : Prop where
  jobs : ∀ job ∈ s.jobs, job.barriers = []
  batch : s.flusher.batch.barriers = []

/-- Where the barrier is that a call waits for: no job comes after it, and
once it is answered there is no job left. -/
inductive LogStore.BarrierAt (s : LogStore) (n : Nat) : Prop
  | queued {front : List FlushJob} (hn : n ∉ s.released) (hjobs : s.jobs = front ++ [.barrier n])
      (hfront : ∀ job ∈ front, job.barriers = []) (hbatch : s.flusher.batch.barriers = [])
  | taken (hn : n ∉ s.released) (hjobs : s.jobs = []) (hbatch : s.flusher.batch.barriers = [n])
  | done (hn : n ∈ s.released) (hdrained : s.Drained)

namespace LogStore

variable {s s' : LogStore} {ok : Bool} {n : Nat}

/-- What the flusher does to barriers: it takes a job, goes on with its
batch, or answers the barriers of the batch. -/
theorem FlushMove.barriers (h : FlushMove ok s s') :
    (∃ job rest, s.jobs = job :: rest ∧ s'.jobs = rest ∧ s'.released = s.released ∧
      s'.flusher.batch.barriers = s.flusher.batch.barriers ++ job.barriers) ∨
    (s.flusher ≠ .idle ∧ s'.jobs = s.jobs ∧
      (s'.released = s.released ∧ s'.flusher.batch.barriers = s.flusher.batch.barriers ∨
        s'.released = s.released ++ s.flusher.batch.barriers ∧ s'.flusher = .idle)) := by
  cases h with
  | @receive job rest batch hjobs hf =>
      have hb : s.flusher.batch = batch := by
        rcases hf with ⟨hf, rfl⟩ | hf <;> rw [hf] <;> rfl
      exact Or.inl ⟨job, rest, hjobs, rfl, rfl, hb ▸ Flusher.receive_barriers ..⟩
  | stop hf _ | write hf _ =>
      refine Or.inr ⟨by rw [hf]; exact Flusher.noConfusion, rfl, Or.inl ⟨rfl, ?_⟩⟩
      rw [hf]
      rfl
  | skip hf _ | fail hf _ | remove hf =>
      refine Or.inr ⟨by rw [hf]; exact Flusher.noConfusion, rfl, Or.inr ⟨?_, rfl⟩⟩
      rw [hf]
      rfl

theorem NoBarrier.flush (h : s.NoBarrier) (hmove : FlushMove ok s s') :
    s'.NoBarrier ∧ s'.released = s.released := by
  obtain ⟨hjobs, hbatch⟩ := h
  rcases hmove.barriers with ⟨job, rest, hs, hs', hrel, hb⟩ | ⟨-, hs', ⟨hrel, hb⟩ | ⟨hrel, hf⟩⟩
  · rw [hs] at hjobs
    refine ⟨⟨fun j hj => hjobs j (List.mem_cons_of_mem _ (hs' ▸ hj)), ?_⟩, hrel⟩
    rw [hb, hbatch, hjobs job List.mem_cons_self, List.nil_append]
  · exact ⟨⟨hs' ▸ hjobs, hb.trans hbatch⟩, hrel⟩
  · refine ⟨⟨hs' ▸ hjobs, by rw [hf]; rfl⟩, ?_⟩
    rw [hrel, hbatch, List.append_nil]

theorem BarrierAt.flush (h : s.BarrierAt n) (hmove : FlushMove ok s s') : s'.BarrierAt n := by
  cases h with
  | @queued front hn hjobs hfront hbatch =>
      rcases hmove.barriers with ⟨job, rest, hs, hs', hrel, hb⟩ | ⟨-, hs', ⟨hrel, hb⟩ | ⟨hrel, hf⟩⟩
      · rw [hs] at hjobs
        cases front with
        | nil =>
            obtain ⟨rfl, rfl⟩ := List.cons.inj hjobs
            refine .taken (hrel ▸ hn) hs' ?_
            rw [hb, hbatch]
            rfl
        | cons first front =>
            obtain ⟨rfl, rfl⟩ := List.cons.inj hjobs
            refine .queued (hrel ▸ hn) hs' (fun j hj => hfront j (List.mem_cons_of_mem _ hj)) ?_
            rw [hb, hbatch, hfront _ List.mem_cons_self, List.nil_append]
      · exact .queued (hrel ▸ hn) (hs'.trans hjobs) hfront (hb.trans hbatch)
      · rw [hbatch, List.append_nil] at hrel
        exact .queued (hrel ▸ hn) (hs'.trans hjobs) hfront (by rw [hf]; rfl)
  | taken hn hjobs hbatch =>
      rcases hmove.barriers with ⟨job, rest, hs, -⟩ | ⟨-, hs', ⟨hrel, hb⟩ | ⟨hrel, hf⟩⟩
      · rw [hjobs] at hs
        cases hs
      · exact .taken (hrel ▸ hn) (hs'.trans hjobs) (hb.trans hbatch)
      · refine .done ?_ ⟨hs'.trans hjobs, hf⟩
        rw [hrel, hbatch]
        exact List.mem_append_right _ List.mem_cons_self
  | done hn hdrained =>
      rcases hmove.barriers with ⟨job, rest, hs, -⟩ | ⟨hf, -⟩
      · rw [hdrained.jobs] at hs
        cases hs
      · exact absurd hdrained.flusher hf

/-- An answered barrier leaves nothing behind it. -/
theorem BarrierAt.drained (h : s.BarrierAt n) (hn : n ∈ s.released) : s.Drained := by
  cases h with
  | queued hnot | taken hnot => exact absurd hn hnot
  | done _ hdrained => exact hdrained

/-- A barrier is sent behind everything. -/
theorem NoBarrier.send_barrier (h : s.NoBarrier) (hn : n ∉ s.released) :
    (s.send (.barrier n)).BarrierAt n :=
  .queued hn rfl h.jobs h.batch

/-- Only the barrier that a call waits for is answered. -/
theorem BarrierAt.released (h : s.BarrierAt n) (hmove : FlushMove ok s s') {m : Nat}
    (hm : m ∈ s'.released) : m ∈ s.released ∨ m = n := by
  have hbatch : ∀ m ∈ s.flusher.batch.barriers, m = n := fun m hm => by
    cases h with
    | queued _ _ _ hb =>
        rw [hb] at hm
        cases hm
    | taken _ _ hb => rwa [hb, List.mem_singleton] at hm
    | done _ hdrained =>
        rw [hdrained.flusher] at hm
        cases hm
  rcases hmove.barriers with ⟨_, _, -, -, hrel, -⟩ | ⟨-, -, ⟨hrel, -⟩ | ⟨hrel, -⟩⟩
  · exact Or.inl (hrel ▸ hm)
  · exact Or.inl (hrel ▸ hm)
  · rw [hrel, List.mem_append] at hm
    exact hm.imp_right (hbatch m)

theorem Drained.noBarrier (h : s.Drained) : s.NoBarrier where
  jobs := by simp [h.jobs]
  batch := by rw [h.flusher]; rfl

end LogStore

/-- What the call in progress may rely on. -/
structure CallInv (s : LogSystem) : Prop where
  released_lt : ∀ n ∈ s.store.released, n < s.nextId
  quiet : s.call.barrier? = none → s.store.NoBarrier
  waits : ∀ n, s.call.barrier? = some n → n < s.nextId ∧ s.store.BarrierAt n
  purges : ∀ n upto, s.call = .purging n upto → s.spec.Purgeable upto

namespace CallInv

variable {entryCodec : Codec Entry} {logIdCodec : Codec LogId} {s s' : LogSystem}

theorem of_quiet (hlt : ∀ n ∈ s.store.released, n < s.nextId) (hcall : s.call.barrier? = none)
    (hq : s.store.NoBarrier) : CallInv s where
  released_lt := hlt
  quiet _ := hq
  waits n hn := by rw [hcall] at hn; cases hn
  purges n upto hn := by rw [hn] at hcall; cases hcall

theorem empty_start : CallInv {} :=
  of_quiet (by simp) rfl ⟨by simp, rfl⟩

/-- The call returns after its barrier. -/
theorem returned (h : CallInv s) {n : Nat} (hcall : s.call.barrier? = some n)
    (hn : n ∈ s.store.released) (hnext : s'.nextId = s.nextId) (hcall' : s'.call = .none)
    (hjobs : s'.store.jobs = s.store.jobs) (hflusher : s'.store.flusher = s.store.flusher)
    (hreleased : s'.store.released = s.store.released) : CallInv s' := by
  have hd := ((h.waits n hcall).2.drained hn).noBarrier
  refine of_quiet ?_ (by rw [hcall']; rfl) ⟨hjobs ▸ hd.jobs, hflusher ▸ hd.batch⟩
  rw [hreleased, hnext]
  exact h.released_lt

theorem step {e : LogEvent} (h : CallInv s) (hmove : s.Move entryCodec logIdCodec e s') :
    CallInv s' := by
  cases hmove with
  | append hcall hes =>
      have hq := h.quiet (by rw [hcall]; rfl)
      exact of_quiet (fun n hn => Nat.lt_succ_of_lt (h.released_lt n hn)) rfl ⟨hq.jobs, hq.batch⟩
  | send hcall =>
      have hq := h.quiet (by rw [hcall]; rfl)
      refine of_quiet h.released_lt rfl ⟨fun job hjob => ?_, hq.batch⟩
      rcases List.mem_append.mp hjob with hjob | hjob
      · exact hq.jobs job hjob
      · rw [List.mem_singleton.mp hjob]
        rfl
  | wait he hcall hbarrier hpurge =>
      have hq := h.quiet (by rw [hcall]; rfl)
      refine ⟨fun n hn => Nat.lt_succ_of_lt (h.released_lt n hn), fun hn => ?_, fun n hn => ?_,
        hpurge⟩
      · cases hbarrier.symm.trans hn
      · obtain rfl := Option.some.inj (hbarrier.symm.trans hn)
        exact ⟨Nat.lt_succ_self _, hq.send_barrier fun hn => lt_irrefl _ (h.released_lt _ hn)⟩
  | answered hcall hn => exact h.returned (by rw [hcall]; rfl) hn rfl rfl rfl rfl rfl
  | truncated hcall hn => exact h.returned (by rw [hcall]; rfl) hn rfl rfl rfl rfl rfl
  | purged hcall hn hstore =>
      obtain ⟨hjobs, hflusher, hreleased, -⟩ := LogStore.purge_frame logIdCodec hstore
      exact h.returned (by rw [hcall]; rfl) hn rfl rfl hjobs hflusher hreleased
  | flush hmove =>
      refine ⟨fun m hm => ?_, fun hq => ((h.quiet hq).flush hmove).1,
        fun n hn => ⟨(h.waits n hn).1, (h.waits n hn).2.flush hmove⟩, h.purges⟩
      cases hb : s.call.barrier? with
      | none => exact h.released_lt m (((h.quiet hb).flush hmove).2 ▸ hm)
      | some n =>
          rcases (h.waits n hb).2.released hmove hm with hm | rfl
          · exact h.released_lt m hm
          · exact (h.waits m hb).1

end CallInv

/-! ## Whole runs -/

/-- The invariant of the machine. -/
structure LogOk (entryCodec : Codec Entry) (logIdCodec : Codec LogId) (s : LogSystem) : Prop where
  log : LogInv entryCodec logIdCodec s
  call : CallInv s

namespace LogOk

variable {entryCodec : Codec Entry} {logIdCodec : Codec LogId} {s s' : LogSystem}

theorem step {e : LogEvent} (h : LogOk entryCodec logIdCodec s)
    (hmove : s.Move entryCodec logIdCodec e s') : LogOk entryCodec logIdCodec s' := by
  refine ⟨?_, h.call.step hmove⟩
  have hlog := h.log
  cases hmove with
  | append hcall hes => exact hlog.append hcall hes rfl rfl rfl rfl
  | send hcall =>
      refine hlog.of_same rfl ?_ rfl rfl rfl
      simp [LogSystem.unwritten, LogStore.send, LogCall.unsent, hcall, FlushJob.entries]
  | wait he hcall hbarrier hpurge =>
      refine hlog.of_same rfl ?_ rfl rfl rfl
      simp [LogSystem.unwritten, LogStore.send, LogCall.unsent_of_barrier hbarrier, hcall,
        FlushJob.entries]
  | answered hcall hn =>
      refine hlog.of_same rfl ?_ rfl rfl rfl
      simp [LogSystem.unwritten, LogCall.unsent, hcall]
  | truncated hcall hn =>
      exact hlog.truncate ((h.call.waits _ (by rw [hcall]; rfl)).2.drained hn) hcall
  | purged hcall hn hstore =>
      exact hlog.purge ((h.call.waits _ (by rw [hcall]; rfl)).2.drained hn) hcall
        (h.call.purges _ _ hcall) hstore
  | flush hmove => exact hlog.flush hmove

theorem run {evs : List LogEvent} (h : LogOk entryCodec logIdCodec s)
    (hrun : s.run entryCodec logIdCodec evs = some s') : LogOk entryCodec logIdCodec s' :=
  Machine.run_keeps (fun _ _ _ h hstep => h.step (LogSystem.step_move hstep)) h hrun

/-- The invariant holds in every state of every run. -/
theorem of_run {evs : List LogEvent}
    (hrun : LogSystem.run entryCodec logIdCodec {} evs = some s) :
    LogOk entryCodec logIdCodec s :=
  run ⟨.empty_start, .empty_start⟩ hrun

end LogOk

namespace LogSystem

variable {entryCodec : Codec Entry} {logIdCodec : Codec LogId} {s s' : LogSystem}

/-- Nothing is lost by a step whose write does not fail. -/
theorem Move.lost_empty {ev : LogEvent} (h : s.Move entryCodec logIdCodec ev s')
    (hok : ev ≠ .flush false) (hlost : s.lost = ∅) : s'.lost = ∅ := by
  cases h with
  | append | send | wait | answered => exact hlost
  | truncated | purged =>
      change s.lost.filter _ = ∅
      rw [hlost, Finset.filter_empty]
  | @flush ok store hmove =>
      obtain rfl : ok = true := by
        cases ok with
        | false => exact absurd rfl hok
        | true => rfl
      change s.lost ∪ s.failing true = ∅
      rw [hlost, Finset.empty_union, failing]
      split <;> rfl

/-- Where every entry of the log is, when no write failed. -/
def Placed (entryCodec : Codec Entry) (s : LogSystem) : Prop :=
  WriteBehind.Placed (s.bytes entryCodec) s.store.pending s.store.db.log
    s.store.flusher.toRemove s.unwritten ∅

end LogSystem

/-! ## Runs without storage errors -/

/-- The invariant of a run in which no write failed. -/
structure LogWhole (entryCodec : Codec Entry) (logIdCodec : Codec LogId) (s : LogSystem) : Prop
    extends LogOk entryCodec logIdCodec s where
  lost : s.lost = ∅
  placed : s.Placed entryCodec

namespace LogWhole

variable {entryCodec : Codec Entry} {logIdCodec : Codec LogId} {s s' : LogSystem}

theorem empty_start : LogWhole entryCodec logIdCodec {} where
  log := .empty_start
  call := .empty_start
  lost := rfl
  placed := .start ∅

/-- Behind an answered barrier every entry is in the database. -/
theorem placed_of_barrier (h : LogWhole entryCodec logIdCodec s) {n : Nat}
    (hcall : s.call.barrier? = some n) (hn : n ∈ s.store.released) :
    s.store.Drained ∧
      WriteBehind.Placed (s.bytes entryCodec) s.store.pending s.store.db.log [] [] ∅ := by
  have hd := (h.call.waits n hcall).2.drained hn
  have hplaced := h.placed
  rw [LogSystem.Placed, hd.flusher, hd.unwritten (LogCall.unsent_of_barrier hcall)] at hplaced
  exact ⟨hd, hplaced⟩

/-- The flusher moves entries from one half to the other. -/
theorem placed_flush (h : LogWhole entryCodec logIdCodec s) {store : LogStore} {lost : Finset Nat}
    (hmove : LogStore.FlushMove true s.store store) :
    LogSystem.Placed entryCodec { s with store := store, lost := lost } := by
  have hplaced := h.placed
  rw [LogSystem.Placed] at hplaced ⊢
  rcases LogSystem.flush_cases hmove with hq | ⟨batch, hf, -, rfl⟩ | ⟨_, -, hfalse, -⟩ |
    ⟨batch, hf, rfl⟩
  · have hunwritten : { s with store := store, lost := lost }.unwritten = s.unwritten :=
      hq.unwritten
    rw [hunwritten, hq.toRemove, hq.pending, hq.db]
    exact hplaced
  · rw [hf, LogSystem.unwritten, hf, List.append_assoc] at hplaced
    exact hplaced.write
  · cases hfalse
  · rw [hf, LogSystem.unwritten, hf] at hplaced
    exact hplaced.remove

/-- Both halves forget the entries up to the purge point: behind the barrier
nothing is pending, so it does not matter where the pending map is cut. -/
theorem placed_purge (h : LogWhole entryCodec logIdCodec s) {n : Nat} {upto : LogId}
    {store : LogStore} (hcall : s.call = .purging n upto) (hn : n ∈ s.store.released)
    (hstore : s.store.purge logIdCodec upto = .ok store) {writer : OrdMap Nat Nat}
    {lost : Finset Nat} :
    LogSystem.Placed entryCodec { s with
      store := store, call := .none, spec := s.spec.purge upto, writer := writer, lost := lost } := by
  obtain ⟨hd, hplaced⟩ := h.placed_of_barrier (by rw [hcall]; rfl) hn
  have hfilter := hplaced.filter fun i => upto.index < i
  have hcut : s.store.pending.splitOff (wrapSucc upto.index) =
      s.store.pending.filter fun i _ => upto.index < i := by
    rw [hplaced.buffer_empty]
    rfl
  rw [LogStore.purge, LogStore.markPurged_eq logIdCodec h.log.purged] at hstore
  obtain rfl := Except.ok.inj hstore
  rw [LogSystem.Placed, LogSystem.unwritten, hd.jobs, hd.flusher,
    h.log.purged_log (h.call.purges _ _ hcall), hcut]
  simpa [LogSystem.bytes, LogSpec.purge, OrdMap.mapVals_filter, Flusher.toRemove,
    Flusher.toWrite, LogCall.unsent] using hfilter

theorem step {e : LogEvent} (h : LogWhole entryCodec logIdCodec s) (hok : e ≠ .flush false)
    (hmove : s.Move entryCodec logIdCodec e s') : LogWhole entryCodec logIdCodec s' := by
  refine ⟨h.toLogOk.step hmove, hmove.lost_empty hok h.lost, ?_⟩
  have hplaced := h.placed
  cases hmove with
  | append hcall hes =>
      rw [LogSystem.Placed, LogSystem.bytes_append rfl, LogSystem.unwritten_append hcall rfl rfl]
      exact hplaced.insert (hes.nodup_keys entryCodec) (hes.new_keys entryCodec)
  | send hcall =>
      simpa [LogSystem.Placed, LogSystem.bytes, LogSystem.unwritten, LogStore.send, LogCall.unsent,
        hcall, FlushJob.entries] using hplaced
  | wait he hcall hbarrier hpurge =>
      simpa [LogSystem.Placed, LogSystem.bytes, LogSystem.unwritten, LogStore.send,
        LogCall.unsent_of_barrier hbarrier, hcall, FlushJob.entries] using hplaced
  | answered hcall hn =>
      simpa [LogSystem.Placed, LogSystem.bytes, LogSystem.unwritten, LogCall.unsent, hcall]
        using hplaced
  | @truncated n index hcall hn =>
      obtain ⟨hd, hplaced⟩ := h.placed_of_barrier (by rw [hcall]; rfl) hn
      have hfilter := hplaced.filter fun i => i < index
      rw [LogSystem.Placed, LogSystem.unwritten, LogStore.truncate, hd.jobs, hd.flusher]
      simpa [LogSystem.bytes, LogSpec.truncate, OrdMap.mapVals_filter, Storage.truncateLogFrom,
        Flusher.toRemove, Flusher.toWrite, LogCall.unsent] using hfilter
  | purged hcall hn hstore => exact h.placed_purge hcall hn hstore
  | @flush ok store hmove =>
      obtain rfl : ok = true := by
        cases ok with
        | false => exact absurd rfl hok
        | true => rfl
      exact h.placed_flush hmove

theorem run {evs : List LogEvent} (h : LogWhole entryCodec logIdCodec s)
    (hrun : s.run entryCodec logIdCodec evs = some s') (hok : ∀ ev ∈ evs, ev ≠ .flush false) :
    LogWhole entryCodec logIdCodec s' :=
  Machine.run_invariant (Q := fun _ ev _ => ev ≠ .flush false)
    (fun _ _ _ h hstep hok => h.step hok (LogSystem.step_move hstep)) h
    (Machine.along_of_forall fun _ ev _ hev _ => hok ev hev) hrun

theorem of_run {evs : List LogEvent}
    (hrun : LogSystem.run entryCodec logIdCodec {} evs = some s)
    (hok : ∀ ev ∈ evs, ev ≠ .flush false) : LogWhole entryCodec logIdCodec s :=
  run empty_start hrun hok

end LogWhole

end HermesMq
