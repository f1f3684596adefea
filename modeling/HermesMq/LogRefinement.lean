import HermesMq.LogRange

/-!
# The log store is one ordered map

With no storage errors, the two halves together are the plain map the
calls built, wherever the flusher is: reads and the log state agree with
it, in every state of every run in which the log ends below `u64::MAX`. A
barrier is always answered, and then nothing is pending
(`log_store_refines_map`).

At `u64::MAX` the index past the end is zero: a read up to there returns
nothing (`read_to_max_is_empty`).
-/

namespace HermesMq

/-! ## Reading the plain map -/

namespace LogSpec

/-- The entries of a range, in index order. -/
def read (spec : LogSpec) (first last : LogStore.Bound) : List Entry :=
  (spec.entries.filter fun i _ => first.atLeast i && last.atMost i).values

/-- The id of the greatest entry, or of the last purged one. -/
def state (spec : LogSpec) : LogStore.LogState where
  lastPurgedLogId := spec.purged
  lastLogId := ((spec.entries.lastKey?.bind spec.entries.get?).map (·.logId)).or spec.purged

end LogSpec

/-! ## The two halves -/

section Halves

variable {entryCodec : Codec Entry} {s : LogSystem}

theorem contents_eq (h : s.Placed entryCodec) : s.store.contents = s.bytes entryCodec :=
  OrdMap.ext_get? fun i => (s.store.contents_get? i).trans (h.merged i)

theorem lastIndex_eq (h : s.Placed entryCodec) :
    s.store.lastIndex = s.spec.entries.lastKey? := by
  rw [LogStore.lastIndex_eq, contents_eq h, LogSystem.bytes, OrdMap.lastKey?_mapVals]

theorem bytesAt_eq (h : s.Placed entryCodec) {i : Nat} (hi : i < u64Max) :
    s.store.bytesAt i = (s.spec.entries.get? i).map entryCodec.enc := by
  rw [← LogSystem.bytes_get?, ← h.merged, LogStore.bytesAt, wrapSucc_of_lt hi]
  cases s.store.pending.get? i with
  | some b => rfl
  | none => exact OrdMap.head?_range_succ ..

end Halves

/-! ## Reads -/

section Reads

open LogStore (Bound startOf)

variable {entryCodec : Codec Entry} {logIdCodec : Codec LogId} {s : LogSystem}

/-- A read returns what the map has in the range. -/
theorem tryGetLogEntries_eq (h : s.Placed entryCodec) {first last : Bound}
    (hroom : s.store.Room first last) (hrange : startOf first ≤ s.store.endOf last) :
    s.store.tryGetLogEntries entryCodec first last = .ok (s.spec.read first last) := by
  rw [LogStore.tryGetLogEntries_eq entryCodec hroom hrange,
    LogStore.decodeEntries_within (contents_eq h), LogSpec.read]

theorem lastPurged_eq (h : LogInv entryCodec logIdCodec s) :
    s.store.lastPurged logIdCodec = .ok s.spec.purged := by
  rw [LogStore.lastPurged, h.purged]
  cases s.spec.purged with
  | none => rfl
  | some p =>
      simp only [Option.map_some, logIdCodec.dec_enc]
      rfl

/-- So does the log state. -/
theorem getLogState_eq (h : LogInv entryCodec logIdCodec s) (hplaced : s.Placed entryCodec)
    (hroom : ∀ i ∈ s.spec.entries.keys, i < u64Max) :
    s.store.getLogState entryCodec logIdCodec = .ok s.spec.state := by
  rw [LogStore.getLogState, lastPurged_eq h, lastIndex_eq hplaced, LogSpec.state]
  cases hk : s.spec.entries.lastKey? with
  | none => rfl
  | some k =>
      obtain ⟨⟨e, he⟩, -⟩ := OrdMap.lastKey?_eq_some.mp hk
      have hk := hroom k (OrdMap.mem_keys.mpr ⟨e, he⟩)
      simp only [bytesAt_eq hplaced hk, he, Option.map_some, entryCodec.dec_enc, Option.bind_some]
      rfl

end Reads

/-! ## Barriers are answered -/

namespace LogStore

/-- How many steps the flusher has left, at most. -/
def load (s : LogStore) : Nat :=
  4 * s.jobs.length + match s.flusher with
    | .idle => 0
    | .collecting _ => 3
    | .ready _ => 2
    | .written _ => 1

theorem receive_load (batch : FlushBatch) (job : FlushJob) (s : LogStore) :
    { s with flusher := batch.receive job }.load ≤ 4 * s.jobs.length + 3 := by
  cases job with
  | append entries callback =>
      simp only [FlushBatch.receive]
      split_ifs <;> simp [load]
  | barrier done => simp [FlushBatch.receive, load]

theorem FlushMove.load_lt {s s' : LogStore} {ok : Bool} (h : FlushMove ok s s') :
    s'.load < s.load := by
  cases h with
  | @receive job rest batch hjobs hf =>
      have hle := receive_load batch job { s with jobs := rest }
      have hlt : 4 * rest.length + 3 < s.load := by
        rw [load, hjobs, List.length_cons]
        omega
      exact lt_of_le_of_lt hle hlt
  | stop hf _ | skip hf _ | write hf _ | fail hf _ | remove hf =>
      simp [load, hf, complete]

/-- The flusher stops only when nothing is left to do. -/
theorem drained_of_flushStep {s : LogStore} {ok : Bool} (h : s.flushStep ok = none) : s.Drained := by
  unfold flushStep at h
  split at h
  · rename_i hf hjobs
    exact ⟨hjobs, hf⟩
  · cases h
  · cases h
  · cases h
  · split_ifs at h
  · cases h

end LogStore

namespace LogSystem

/-- Left alone, the flusher does all its work. -/
theorem flush_drains (entryCodec : Codec Entry) (logIdCodec : Codec LogId) (s : LogSystem) :
    ∃ m s',
    s.run entryCodec logIdCodec (List.replicate m (.flush true)) = some s' ∧
      s'.store.Drained ∧ s'.call = s.call := by
  induction hn : s.store.load using Nat.strong_induction_on generalizing s with
  | _ n ih =>
      cases hstep : s.store.flushStep true with
      | none => exact ⟨0, s, rfl, LogStore.drained_of_flushStep hstep, rfl⟩
      | some store =>
          have hlt := (LogStore.flushStep_move hstep).load_lt
          obtain ⟨m, s', hrun, hd, hcall⟩ := ih store.load (hn ▸ hlt)
            { s with store := store, lost := s.lost ∪ s.failing true } rfl
          refine ⟨m + 1, s', ?_, hd, hcall⟩
          rw [List.replicate_succ, run, Machine.run_cons_eq_some, step, hstep]
          exact ⟨_, rfl, hrun⟩

variable {entryCodec : Codec Entry} {logIdCodec : Codec LogId} {s : LogSystem} {n : Nat}

/-- A call whose barrier is answered goes on and returns. -/
theorem finish_isSome (h : LogInv entryCodec logIdCodec s) (hcall : s.call.barrier? = some n)
    (hn : n ∈ s.store.released) : (s.finish logIdCodec).isSome := by
  cases hc : s.call with
  | none | appending =>
      rw [hc] at hcall
      cases hcall
  | truncating m index | flushing m =>
      rw [hc] at hcall
      obtain rfl := Option.some.inj hcall
      simp [finish, hc, hn]
  | purging m upto =>
      rw [hc] at hcall
      obtain rfl := Option.some.inj hcall
      simp only [finish, hc, hn, if_true, LogStore.purge,
        LogStore.markPurged_eq logIdCodec h.purged]
      rfl

/-- Every barrier is answered once the flusher has done its work. -/
theorem barrier_answered (h : LogOk entryCodec logIdCodec s) (hcall : s.call.barrier? = some n) :
    ∃ m s', s.run entryCodec logIdCodec (List.replicate m (.flush true)) = some s' ∧
      (s'.step entryCodec logIdCodec .finish).isSome := by
  obtain ⟨m, s', hrun, hd, hsame⟩ := flush_drains entryCodec logIdCodec s
  have h' := h.run hrun
  rw [← hsame] at hcall
  refine ⟨m, s', hrun, finish_isSome h'.log hcall ?_⟩
  cases (h'.call.waits n hcall).2 with
  | queued _ hjobs =>
      rw [hd.jobs] at hjobs
      exact absurd hjobs.symm (by simp)
  | taken _ _ hbatch =>
      rw [hd.flusher] at hbatch
      cases hbatch
  | done hn _ => exact hn

/-- With nothing lost, nothing is pending behind a barrier. -/
theorem pending_of_barrier (h : LogWhole entryCodec logIdCodec s)
    (hcall : s.call.barrier? = some n) (hn : n ∈ s.store.released) : s.store.pending = ∅ :=
  (h.placed_of_barrier hcall hn).2.buffer_empty

end LogSystem

/-! ## The refinement -/

/-- In every state of every run without storage errors, as long as the log
and the ranges asked for end below `u64::MAX`, the log store is the plain
map its calls built: reads and the log state are those of the map, nothing
is pending behind an answered barrier, and the flusher's steps lead every
barrier to its answer. -/
theorem log_store_refines_map {entryCodec : Codec Entry} {logIdCodec : Codec LogId}
    {s : LogSystem} {evs : List LogEvent}
    (hrun : LogSystem.run entryCodec logIdCodec {} evs = some s)
    (hok : ∀ ev ∈ evs, ev ≠ .flush false) (hlog : ∀ i ∈ s.spec.entries.keys, i < u64Max) :
    (∀ first last : LogStore.Bound, (∀ i, first.endpoint? = some i → i < u64Max) →
      (∀ i, last.endpoint? = some i → i < u64Max) →
      LogStore.startOf first ≤ s.store.endOf last →
      s.store.tryGetLogEntries entryCodec first last = .ok (s.spec.read first last)) ∧
    s.store.getLogState entryCodec logIdCodec = .ok s.spec.state ∧
    (∀ n, s.call.barrier? = some n → n ∈ s.store.released → s.store.pending = ∅) ∧
    ∀ n, s.call.barrier? = some n → ∃ m s',
      s.run entryCodec logIdCodec (List.replicate m (.flush true)) = some s' ∧
      (s'.step entryCodec logIdCodec .finish).isSome := by
  have h : LogWhole entryCodec logIdCodec s := .of_run hrun hok
  have hkeys : ∀ i ∈ s.store.contents.keys, i < u64Max := fun i hi => by
    obtain ⟨b, hb⟩ := OrdMap.mem_keys.mp hi
    rw [contents_eq h.placed, LogSystem.bytes_get?] at hb
    obtain ⟨e, he, -⟩ := Option.map_eq_some_iff.mp hb
    exact hlog i (OrdMap.mem_keys.mpr ⟨e, he⟩)
  refine ⟨fun first last hfirst hlast => ?_, getLogState_eq h.log h.placed hlog,
    fun _ => LogSystem.pending_of_barrier h, fun _ => LogSystem.barrier_answered h.toLogOk⟩
  exact tryGetLogEntries_eq h.placed ⟨hkeys, hfirst, hlast⟩

/-- An entry in both halves is read once. -/
theorem log_store_refines_map_written :
    ∃ s, LogSystem.run blankCodec (.ofCountable LogId) {}
        [.append [blankAt 1, blankAt 2], .send, .flush true, .flush true, .flush true] = some s ∧
      s.store.pending.size = 2 ∧ s.store.db.log.size = 2 ∧
      s.store.tryGetLogEntries blankCodec (.included 1) (.excluded 3) =
        .ok [blankAt 1, blankAt 2] ∧
      s.store.getLogState blankCodec (.ofCountable LogId) = .ok ⟨none, some ⟨⟨1, 1⟩, 2⟩⟩ := by
  let batch : FlushBatch :=
    { entries := [(1, []), (2, [0])], callbacks := [0], barriers := [], bytes := 1 }
  let s : LogSystem :=
    { store := { db := { log := .ofList batch.entries }, pending := .ofList batch.entries
                 flusher := .written batch }
      nextId := 1
      spec := { entries := .ofList [(1, blankAt 1), (2, blankAt 2)] }
      writer := .ofList [(1, 0), (2, 0)] }
  have hrun : LogSystem.run blankCodec (.ofCountable LogId) {}
      [.append [blankAt 1, blankAt 2], .send, .flush true, .flush true, .flush true] = some s := rfl
  obtain ⟨hread, hstate, -⟩ := log_store_refines_map hrun (by decide) (by decide)
  exact ⟨s, hrun, rfl, rfl,
    hread _ _ (by rintro i ⟨⟩; decide) (by rintro i ⟨⟩; decide) (by decide), hstate⟩

/-- One entry, and a read of everything up to `u64::MAX`. -/
theorem read_to_max_is_empty :
    ∃ (entryCodec : Codec Entry) (logIdCodec : Codec LogId) (evs : List LogEvent) (s : LogSystem),
      LogSystem.run entryCodec logIdCodec {} evs = some s ∧ (∀ ev ∈ evs, ev ≠ .flush false) ∧
      s.spec.read (.included 0) (.included u64Max) = [blankAt 1] ∧
      s.store.tryGetLogEntries entryCodec (.included 0) (.included u64Max) = .ok [] :=
  ⟨blankCodec, .ofCountable LogId, [.append [blankAt 1], .send],
    { store := { pending := .ofList [(1, [])], jobs := [.append [(1, [])] (some 0)] }
      nextId := 1
      spec := { entries := .ofList [(1, blankAt 1)] }
      writer := .ofList [(1, 0)] },
    rfl, by decide, rfl, rfl⟩

end HermesMq
