import HermesMq.LogInvariant

/-!
# What an acknowledged append promises

The callback of an append is called with success after the batch that
holds its entries is written. Callbacks are called in the order of the
appends (`AckInv.sorted`), and an entry that still waits belongs to an
append whose callback is still to come, so every entry of an acknowledged
append and of the appends before it has left the queue.

It need not be on disk. The flusher goes on after a write that fails, and
the failed entries are in no later batch: the log has them, the database
does not, and the next append is acknowledged all the same. An
acknowledged prefix is on disk exactly when none of its entries was lost
this way (`acked_prefix_durable_iff`).
-/

namespace HermesMq

/-! ## Callbacks in order -/

def FlushJob.callbacks : FlushJob → List Nat
  | .append _ callback => callback.toList
  | .barrier _ => []

def LogCall.callbacks : LogCall → List Nat
  | .appending _ callback => [callback]
  | _ => []

@[simp] theorem LogCall.callbacks_none : LogCall.none.callbacks = [] := rfl

theorem LogCall.callbacks_of_barrier {call : LogCall} {n : Nat} (h : call.barrier? = some n) :
    call.callbacks = [] := by
  cases call with
  | appending => cases h
  | none | truncating | purging | flushing => rfl

theorem Flusher.receive_callbacks (batch : FlushBatch) (job : FlushJob) :
    (batch.receive job).batch.callbacks = batch.callbacks ++ job.callbacks := by
  cases job with
  | append entries callback =>
      simp only [FlushBatch.receive]
      split_ifs <;> rfl
  | barrier done => simp [FlushBatch.receive, Flusher.batch, FlushJob.callbacks]

/-- The callbacks, called or to be called, in the order of the calls. -/
def LogSystem.callbacks (s : LogSystem) : List Nat :=
  s.store.completed.map Prod.fst ++ (s.store.flusher.batch.callbacks ++
    (s.store.jobs.flatMap FlushJob.callbacks ++ s.call.callbacks))

/-- The entries were written by the appends with these callbacks. -/
def Owned (writer : OrdMap Nat Nat) (entries : List (Nat × Bytes)) (callbacks : List Nat) : Prop :=
  ∀ p ∈ entries, ∃ k ∈ callbacks, writer.get? p.1 = some k

namespace Owned

variable {writer : OrdMap Nat Nat} {entries entries' : List (Nat × Bytes)}
  {callbacks callbacks' : List Nat}

theorem nil : Owned writer [] callbacks := fun _ hp => absurd hp List.not_mem_nil

theorem append (h : Owned writer entries callbacks) (h' : Owned writer entries' callbacks') :
    Owned writer (entries ++ entries') (callbacks ++ callbacks') := by
  intro p hp
  rcases List.mem_append.mp hp with hp | hp
  · exact (h p hp).imp fun _ hk => ⟨List.mem_append_left _ hk.1, hk.2⟩
  · exact (h' p hp).imp fun _ hk => ⟨List.mem_append_right _ hk.1, hk.2⟩

/-- An append of other indices changes nothing. -/
theorem insertAll (h : Owned writer entries callbacks) {l : List (Nat × Nat)}
    (hnew : ∀ p ∈ entries, p.1 ∉ l.map Prod.fst) :
    Owned (writer.insertAll l) entries callbacks := by
  intro p hp
  obtain ⟨k, hk, hw⟩ := h p hp
  exact ⟨k, hk, by rw [OrdMap.get?_insertAll_of_not_mem (hnew p hp), hw]⟩

end Owned

structure AckInv (s : LogSystem) : Prop where
  sorted : s.callbacks.Pairwise (· < ·)
  lt_next : ∀ k ∈ s.callbacks, k < s.nextId
  batch : Owned s.writer s.store.flusher.toWrite s.store.flusher.batch.callbacks
  jobs : ∀ job ∈ s.store.jobs, Owned s.writer job.entries job.callbacks
  call : Owned s.writer s.call.unsent s.call.callbacks

namespace AckInv

variable {entryCodec : Codec Entry} {logIdCodec : Codec LogId} {s s' : LogSystem}

theorem empty_start : AckInv {} where
  sorted := List.Pairwise.nil
  lt_next := fun _ hk => absurd hk List.not_mem_nil
  batch := .nil
  jobs := fun _ hp => absurd hp List.not_mem_nil
  call := .nil

/-- A step that starts no append leaves the order of the callbacks. -/
theorem of_same (h : AckInv s) (hcallbacks : s'.callbacks = s.callbacks)
    (hnext : s.nextId ≤ s'.nextId)
    (hbatch : Owned s'.writer s'.store.flusher.toWrite s'.store.flusher.batch.callbacks)
    (hjobs : ∀ job ∈ s'.store.jobs, Owned s'.writer job.entries job.callbacks)
    (hcall : Owned s'.writer s'.call.unsent s'.call.callbacks) : AckInv s' where
  sorted := hcallbacks ▸ h.sorted
  lt_next k hk := lt_of_lt_of_le (h.lt_next k (hcallbacks ▸ hk)) hnext
  batch := hbatch
  jobs := hjobs
  call := hcall

theorem flush (h : AckInv s) {ok : Bool} {store : LogStore} {lost : Finset Nat}
    (hmove : LogStore.FlushMove ok s.store store) :
    AckInv { s with store := store, lost := lost } := by
  have hbatch := h.batch
  cases hmove with
  | @receive job rest batch hjobs hf =>
      have hb : s.store.flusher.batch = batch ∧ s.store.flusher.toWrite = batch.entries := by
        rcases hf with ⟨hf, rfl⟩ | hf <;> rw [hf] <;> exact ⟨rfl, rfl⟩
      refine h.of_same ?_ le_rfl ?_ (fun j hj => h.jobs j (hjobs ▸ List.mem_cons_of_mem _ hj)) h.call
      · simp [LogSystem.callbacks, Flusher.receive_callbacks, hb.1, hjobs]
      · rw [Flusher.receive_toWrite, Flusher.receive_callbacks]
        rw [hb.1, hb.2] at hbatch
        exact hbatch.append (h.jobs job (hjobs ▸ List.mem_cons_self))
  | stop hf _ =>
      rw [hf] at hbatch
      refine h.of_same ?_ le_rfl hbatch h.jobs h.call
      simp [LogSystem.callbacks, hf, Flusher.batch]
  | write hf _ =>
      refine h.of_same ?_ le_rfl .nil h.jobs h.call
      simp [LogSystem.callbacks, hf, Flusher.batch]
  | skip hf _ | fail hf _ | remove hf =>
      -- the callbacks of the batch are called
      refine h.of_same ?_ le_rfl .nil h.jobs h.call
      simp [LogSystem.callbacks, hf, Flusher.batch, LogStore.complete, Function.comp_def]

/-- A new append comes last. -/
theorem append (h : AckInv s) (hlog : LogInv entryCodec logIdCodec s) {es : List Entry}
    (hcall : s.call = .none) (hes : s.spec.Appendable es)
    (hstore : s'.store = s.store.insertPending (LogStore.encodeEntries entryCodec es))
    (hcall' : s'.call = .appending (LogStore.encodeEntries entryCodec es) s.nextId)
    (hnext : s'.nextId = s.nextId + 1)
    (hwriter : s'.writer = s.writer.insertAll (es.map fun e => (e.logId.index, s.nextId))) :
    AckInv s' := by
  have hkeys : (es.map fun e => (e.logId.index, s.nextId)).map Prod.fst =
      es.map (·.logId.index) := by simp
  -- what waits is in the log, what is appended is above it
  have hnew : ∀ p ∈ s.unwritten,
      p.1 ∉ (es.map fun e => (e.logId.index, s.nextId)).map Prod.fst := fun p hp hmem => by
    have hcur := hlog.stored.current p (List.mem_append_right _ hp)
    rw [LogSystem.bytes_get?] at hcur
    obtain ⟨e, he, -⟩ := Option.map_eq_some_iff.mp hcur
    rw [hkeys] at hmem
    obtain ⟨e', he', heq⟩ := List.mem_map.mp hmem
    have hlt := (hes.2 e' he').1 p.1 (OrdMap.mem_keys.mpr ⟨e, he⟩)
    exact absurd heq (Nat.ne_of_gt hlt)
  have hcallbacks : s'.callbacks = s.callbacks ++ [s.nextId] := by
    simp [LogSystem.callbacks, hstore, LogStore.insertPending, hcall, hcall', LogCall.callbacks]
  refine ⟨?_, fun k hk => ?_, ?_, fun job hjob => ?_, fun p hp => ?_⟩
  · rw [hcallbacks, List.pairwise_append]
    refine ⟨h.sorted, List.pairwise_singleton .., fun k hk m hm => ?_⟩
    exact List.mem_singleton.mp hm ▸ h.lt_next k hk
  · rw [hcallbacks, List.mem_append, List.mem_singleton] at hk
    rw [hnext]
    rcases hk with hk | rfl
    · exact Nat.lt_succ_of_lt (h.lt_next k hk)
    · exact Nat.lt_succ_self _
  · rw [hwriter, hstore]
    exact h.batch.insertAll fun p hp => hnew p (by simp [LogSystem.unwritten, hp])
  · rw [hstore] at hjob
    rw [hwriter]
    refine (h.jobs job hjob).insertAll fun p hp => hnew p ?_
    exact List.mem_append_left _
      (List.mem_append_right _ (List.mem_flatMap.mpr ⟨job, hjob, hp⟩))
  · rw [hcall'] at hp ⊢
    obtain ⟨e, he, rfl⟩ := List.mem_map.mp hp
    refine ⟨s.nextId, List.mem_singleton_self _, ?_⟩
    rw [hwriter]
    have hnd : (es.map (·.logId.index)).Nodup := hes.1.imp fun hlt => hlt.ne
    rw [← hkeys] at hnd
    exact OrdMap.get?_insertAll_of_mem hnd (List.mem_map.mpr ⟨e, he, rfl⟩) _

/-- A call that returns after its barrier leaves no entry waiting. -/
theorem returned (h : AckInv s) (hd : s.store.Drained) (hcall : s.call.callbacks = [])
    (hcall' : s'.call = .none) (hnext : s'.nextId = s.nextId)
    (hjobs : s'.store.jobs = s.store.jobs) (hflusher : s'.store.flusher = s.store.flusher)
    (hcompleted : s'.store.completed = s.store.completed) : AckInv s' := by
  refine h.of_same ?_ hnext.ge ?_ (fun job hjob => ?_) ?_
  · simp [LogSystem.callbacks, hjobs, hflusher, hcompleted, hcall, hcall']
  · rw [hflusher, hd.flusher]
    exact .nil
  · rw [hjobs, hd.jobs] at hjob
    cases hjob
  · rw [hcall']
    exact .nil

theorem step {ev : LogEvent} (h : AckInv s) (hok : LogOk entryCodec logIdCodec s)
    (hmove : s.Move entryCodec logIdCodec ev s') : AckInv s' := by
  have hjobs := h.jobs
  cases hmove with
  | append hcall hes => exact h.append hok.log hcall hes rfl rfl rfl rfl
  | send hcall =>
      refine h.of_same ?_ le_rfl h.batch (fun job hjob => ?_) .nil
      · simp [LogSystem.callbacks, LogStore.send, hcall, LogCall.callbacks, FlushJob.callbacks]
      · rcases List.mem_append.mp hjob with hjob | hjob
        · exact h.jobs job hjob
        · have hown := h.call
          rw [hcall] at hown
          rw [List.mem_singleton.mp hjob]
          exact hown
  | wait he hcall hbarrier hpurge =>
      refine h.of_same ?_ (Nat.le_succ _) h.batch (fun job hjob => ?_) ?_
      · simp [LogSystem.callbacks, LogStore.send, hcall, LogCall.callbacks_of_barrier hbarrier,
          FlushJob.callbacks]
      · rcases List.mem_append.mp hjob with hjob | hjob
        · exact h.jobs job hjob
        · rw [List.mem_singleton.mp hjob]
          exact .nil
      · rw [LogCall.unsent_of_barrier hbarrier]
        exact .nil
  | answered hcall hn =>
      refine h.of_same ?_ le_rfl h.batch h.jobs .nil
      simp [LogSystem.callbacks, hcall, LogCall.callbacks]
  | truncated hcall hn =>
      exact h.returned ((hok.call.waits _ (by rw [hcall]; rfl)).2.drained hn)
        (by rw [hcall]; rfl) rfl rfl rfl rfl rfl
  | purged hcall hn hstore =>
      obtain ⟨hjobs, hflusher, -, hcompleted⟩ := LogStore.purge_frame logIdCodec hstore
      exact h.returned ((hok.call.waits _ (by rw [hcall]; rfl)).2.drained hn)
        (by rw [hcall]; rfl) rfl rfl hjobs hflusher hcompleted
  | flush hmove => exact h.flush hmove

theorem of_run {evs : List LogEvent}
    (hrun : LogSystem.run entryCodec logIdCodec {} evs = some s) : AckInv s := by
  have hstart : LogOk entryCodec logIdCodec {} ∧ AckInv {} :=
    ⟨⟨.empty_start, .empty_start⟩, empty_start⟩
  refine (Machine.run_keeps (P := fun s => LogOk entryCodec logIdCodec s ∧ AckInv s)
    (fun _ _ _ h hstep => ?_) hstart hrun).2
  have hmove := LogSystem.step_move hstep
  exact ⟨h.1.step hmove, h.2.step h.1 hmove⟩

/-- An entry that waits belongs to an append that is not acknowledged. -/
theorem lt_writer (h : AckInv s) {k i w : Nat} {ok : Bool} (hk : (k, ok) ∈ s.store.completed)
    (hi : i ∈ s.unwritten.map Prod.fst) (hw : s.writer.get? i = some w) : k < w := by
  have hlater := (List.pairwise_append.mp h.sorted).2.2 k (List.mem_map.mpr ⟨(k, ok), hk, rfl⟩)
  obtain ⟨p, hp, rfl⟩ := List.mem_map.mp hi
  rw [LogSystem.unwritten, List.append_assoc, List.mem_append, List.mem_append] at hp
  have howned : ∃ m ∈ s.store.flusher.batch.callbacks ++
      (s.store.jobs.flatMap FlushJob.callbacks ++ s.call.callbacks), s.writer.get? p.1 = some m := by
    rcases hp with hp | hp | hp
    · obtain ⟨m, hm, heq⟩ := h.batch p hp
      exact ⟨m, List.mem_append_left _ hm, heq⟩
    · obtain ⟨job, hjob, hp⟩ := List.mem_flatMap.mp hp
      obtain ⟨m, hm, heq⟩ := h.jobs job hjob p hp
      exact ⟨m, List.mem_append_right _ (List.mem_append_left _
        (List.mem_flatMap.mpr ⟨job, hjob, hm⟩)), heq⟩
    · obtain ⟨m, hm, heq⟩ := h.call p hp
      exact ⟨m, List.mem_append_right _ (List.mem_append_right _ hm), heq⟩
  obtain ⟨m, hm, heq⟩ := howned
  obtain rfl := Option.some.inj (hw.symm.trans heq)
  exact hlater _ hm

end AckInv

/-! ## Acknowledged prefixes -/

/-- Once an append is acknowledged, the entries of it and of the appends
before it that the log still has are in the database exactly when none
of them is lost. -/
theorem acked_prefix_durable_iff {entryCodec : Codec Entry} {logIdCodec : Codec LogId}
    {s : LogSystem} {evs : List LogEvent} {k : Nat}
    (hrun : LogSystem.run entryCodec logIdCodec {} evs = some s)
    (hack : (k, true) ∈ s.store.completed) :
    (∀ i e w, s.spec.entries.get? i = some e → s.writer.get? i = some w → w ≤ k →
      s.store.db.log.get? i = some (entryCodec.enc e)) ↔
    ∀ i w, s.writer.get? i = some w → w ≤ k → i ∉ s.lost := by
  have hstored := (LogOk.of_run hrun).log.stored
  have hacks := AckInv.of_run hrun
  constructor
  · intro hdurable i w hw hle hlost
    obtain ⟨-, b, hb⟩ := hstored.lost_log i hlost
    rw [LogSystem.bytes_get?] at hb
    obtain ⟨e, he, -⟩ := Option.map_eq_some_iff.mp hb
    exact ((hstored.store_iff i _).mp (hdurable i e w he hw hle)).2.2 hlost
  · intro hkept i e w he hw hle
    refine (hstored.store_iff i _).mpr ⟨?_, fun hi => ?_, hkept i w hw hle⟩
    · rw [LogSystem.bytes_get?, he, Option.map_some]
    · exact absurd (hacks.lt_writer hack hi hw) (Nat.not_lt.mpr hle)

/-- Two appends that the flusher writes in two batches. -/
def twoAppends : List LogEvent :=
  [.append [blankAt 1], .send, .flush true, .flush true, .append [blankAt 2], .send,
    .flush true, .flush true, .flush true, .flush true, .flush true, .flush true]

/-- When the second append is acknowledged, both are in the database. -/
theorem both_appends_durable :
    ∃ s, LogSystem.run blankCodec (.ofCountable LogId) {} twoAppends = some s ∧
      s.store.completed = [(0, true), (1, true)] ∧
      s.store.db.log.get? 1 = some (blankCodec.enc (blankAt 1)) ∧
      s.store.db.log.get? 2 = some (blankCodec.enc (blankAt 2)) := by
  let s : LogSystem :=
    { store :=
        { db := { log := .ofList [(1, []), (2, [0])] }, completed := [(0, true), (1, true)] }
      nextId := 2
      spec := { entries := .ofList [(1, blankAt 1), (2, blankAt 2)] }
      writer := .ofList [(1, 0), (2, 1)] }
  have hrun : LogSystem.run blankCodec (.ofCountable LogId) {} twoAppends = some s := rfl
  have hack : (1, true) ∈ s.store.completed := by decide
  have hiff := acked_prefix_durable_iff hrun hack
  have hdurable := hiff.mpr fun i w _ _ => Finset.notMem_empty i
  exact ⟨s, hrun, rfl, hdurable 1 _ 0 rfl rfl (by decide), hdurable 2 _ 1 rfl rfl le_rfl⟩

/-- Entry 2 is appended while the flusher is about to write entry 1. That
write fails, the next one succeeds and the second append is acknowledged:
entry 1 is in the log but not on disk. -/
theorem acked_log_with_hole :
    ∃ (entryCodec : Codec Entry) (logIdCodec : Codec LogId) (evs : List LogEvent) (s : LogSystem),
      LogSystem.run entryCodec logIdCodec {} evs = some s ∧ (1, true) ∈ s.store.completed ∧
      s.writer.get? 1 = some 0 ∧ s.writer.get? 2 = some 1 ∧
      s.spec.entries.get? 1 = some (blankAt 1) ∧ s.store.db.log.get? 1 = none :=
  ⟨blankCodec, .ofCountable LogId,
    [.append [blankAt 1], .send, .flush true, .flush true, .append [blankAt 2], .send,
      .flush false, .flush true, .flush true, .flush true, .flush true],
    { store :=
        { db := { log := .ofList [(2, [0])] }
          pending := .ofList [(1, [])]
          completed := [(0, false), (1, true)] }
      nextId := 2
      spec := { entries := .ofList [(1, blankAt 1), (2, blankAt 2)] }
      writer := .ofList [(1, 0), (2, 1)]
      lost := {1} },
    rfl, by decide, rfl, rfl, rfl, rfl⟩

end HermesMq
