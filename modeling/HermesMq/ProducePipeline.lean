import HermesMq.Batcher
import HermesMq.DedupWindow
import HermesMq.Machine
import HermesMq.PollResponse

/-!
# The way of a produce request

A produce request that has passed its checks waits in a channel, together
with those of all other connections. The batcher takes it from there in a
batch with others, and a task writes the batch while up to three others
write theirs: the batches are applied in any order. The task then gives each
handler its reply. A write can fail, and a write that has failed may be
applied all the same, later or before.

Whatever the order, every request is answered once, and an offset in an
answer is that of the message, or of an earlier one with the same key
(`produced_recorded`). A client that waits for an answer before it sends
the next message gets its messages in order (`produces_in_order`).
-/

namespace HermesMq

/-! ## Offsets of a batch -/

/-- A message that the events on its topic put at the offset, or one that
repeats a message there. -/
def Placed (log events : List TopicEvent) (item : ProduceItem) (o : Offset) : Prop :=
  (item, o) ∈ appends events ∨
    item.producerId ≠ "" ∧ ∃ item', (item', o) ∈ appends (log ++ events) ∧
      item'.dedupKey = item.dedupKey

section Placed

variable {log events : List TopicEvent} {item : ProduceItem} {o : Offset}

theorem Placed.more (h : Placed log events item o) (later : List TopicEvent) :
    Placed log (events ++ later) item o := by
  rcases h with hnew | ⟨hid, item', hmem, hkey⟩
  · exact .inl (by rw [appends_append]; exact List.mem_append_left _ hnew)
  · refine .inr ⟨hid, item', ?_, hkey⟩
    rw [← List.append_assoc, appends_append]
    exact List.mem_append_left _ hmem

/-- The first part of the events happened before the rest. -/
theorem Placed.shift {before : List TopicEvent} (h : Placed (log ++ before) events item o) :
    Placed log (before ++ events) item o := by
  rcases h with hnew | ⟨hid, item', hmem, hkey⟩
  · exact .inl (by rw [appends_append]; exact List.mem_append_right _ hnew)
  · exact .inr ⟨hid, item', by rwa [← List.append_assoc], hkey⟩

/-- A key that the topic remembers is that of a message in its log. -/
theorem DedupLogged.mem_of_key {t : TopicState} (h : DedupLogged log t) {key : DedupKey}
    (hkey : t.dedup.get? key = some o) :
    ∃ item', (item', o) ∈ appends log ∧ item'.dedupKey = key := by
  obtain ⟨dropped, kept, hwindow⟩ := h.window
  have hmem : key ∈ t.dedupOrder := by
    rw [hwindow.ok.mem_iff, OrdMap.contains, hkey]
    rfl
  rw [hwindow.order_eq] at hmem
  obtain ⟨x, hx, rfl⟩ := List.mem_map.mp hmem
  have hsame : x.2 = o := Option.some.inj ((hwindow.offset x hx).symm.trans hkey)
  have hlog : x ∈ keyedAppends log := hwindow.split ▸ List.mem_append_right _ hx
  exact ⟨x.1, hsame ▸ (List.mem_filter.mp hlog).1, rfl⟩

theorem produceTopic_placed {t : TopicState} (h : DedupLogged log t) (item : ProduceItem) :
    Placed log (produceEvents t item) item (produceTopic t item).2 := by
  by_cases hdup : item.producerId ≠ "" ∧ t.dedup.contains item.dedupKey
  · obtain ⟨hid, hin⟩ := hdup
    obtain ⟨o, ho⟩ := Option.isSome_iff_exists.mp hin
    have hoffset : (produceTopic t item).2 = o := by
      simp [produceTopic, hid, ho]
    obtain ⟨item', hmem, hkey⟩ := h.mem_of_key ho
    refine .inr ⟨hid, item', ?_, hkey⟩
    rw [hoffset, appends_append]
    exact List.mem_append_left _ hmem
  · refine .inl ?_
    rw [produceEvents, if_neg hdup, appends_append]
    exact List.mem_append_left _ (List.mem_singleton_self _)

theorem produceAll_placed {τ : TopicId} {items : List ProduceItem}
    (hnames : ∀ item ∈ items, item.NamesOk) {q : Queue} (hshape : q.Topics TopicShape)
    (hq : q.Logged DedupLogged τ log) {x : ProduceItem × Offset}
    (hx : x ∈ items.zip (q.produceAll items).2) (hτ : x.1.topic = τ) :
    Placed log (q.produceAllEvents τ items) x.1 x.2 := by
  induction items generalizing q log with
  | nil => cases hx
  | cons item rest ih =>
      rw [List.forall_mem_cons] at hnames
      have hone : Steps item.request q (q.produceOne item).1 :=
        produceOne_steps (List.mem_singleton.mpr rfl) q
      rw [Queue.produceAllEvents]
      rcases List.mem_cons.mp hx with rfl | hrest
      · -- the first of the batch
        refine Placed.more ?_ _
        simp only at hτ
        subst hτ
        rw [if_pos rfl]
        exact produceTopic_placed hq.holds item
      · have hlogged := (dedupLogged_invariant τ).produceAll
          (List.forall_mem_singleton.mpr hnames.1) hshape hq
        rw [Queue.produceAllEvents, Queue.produceAllEvents, List.append_nil] at hlogged
        exact (ih hnames.2 (hone.shape hshape) hlogged hrest).shift

/-- The offsets in the response to a batch. -/
theorem produceMany_placed {reqs : List AppRequest} {items : List ProduceItem}
    {offsets : List Offset}
    (hresponse : ((({} : Queue).run reqs).apply (.produceMany items)).2 = .producedMany offsets)
    {x : ProduceItem × Offset} (hx : x ∈ items.zip offsets) :
    Placed (topicLog x.1.topic reqs)
      ((({} : Queue).run reqs).topicEvents x.1.topic (.produceMany items)) x.1 x.2 := by
  cases hcheck : (({} : Queue).run reqs).checkProduce items with
  | error reason =>
      rw [Queue.apply_produceMany_error hcheck] at hresponse
      cases hresponse
  | ok u =>
      rw [Queue.apply_produceMany_ok hcheck] at hresponse
      cases hresponse
      rw [Queue.topicEvents, AppRequest.items, hcheck]
      exact produceAll_placed (Queue.checkProduce_ok_iff.mp hcheck).1 (run_shape reqs)
        ((dedupLogged_invariant _).run reqs) hx rfl

end Placed

/-! ## The pipeline -/

def produceQueueDepth : Nat := 1024

def produceWritePipeline : Nat := 4

/-- A task that writes a batch. -/
inductive ProduceWriter where
  | writing (tsMs : Nat) (jobs : List ProduceJob)
  /-- The batch is applied, and these are the replies to it. -/
  | applied (jobs : List ProduceJob) (replies : List (Nat × Response))
  /-- It has replied, and has still to give its permit back. -/
  | replied

def ProduceWriter.jobs : ProduceWriter → List ProduceJob
  | .writing _ jobs => jobs
  | .applied jobs _ => jobs
  | .replied => []

structure ProducePort where
  /-- The requests that the state machine has applied. -/
  reqs : List AppRequest := []
  /-- Handlers that have made their checks and wait for the channel. -/
  admitted : List ProduceFrame := []
  batcher : Batcher ProduceJob ProduceWriter := {}
  /-- The jobs in the order in which they were sent; a job is its reply's
  number. -/
  sent : List ProduceJob := []
  replies : List (Nat × Response) := []

inductive ProduceEvent where
  | check (p : ProduceFrame)
  | send (k : Nat)
  | receive
  | spawn (tsMs : Nat)
  | apply (i : Nat)
  | fail (i : Nat) (error : WriteError)
  | reply (i : Nat)
  | release (i : Nat)
  /-- Any other entry is applied, a write that has failed among them. -/
  | other (req : AppRequest)

namespace ProducePort

variable (debug : AppResponse → String)

def queue (s : ProducePort) : Queue := ({} : Queue).run s.reqs

/-- The jobs without a reply. -/
def pending (s : ProducePort) : List ProduceJob :=
  s.batcher.pending (fun job => [job]) ProduceWriter.jobs

def send (s : ProducePort) (p : ProduceFrame) : ProducePort :=
  let job : ProduceJob := ⟨p, s.sent.length⟩
  { s with batcher := s.batcher.submit job, sent := s.sent ++ [job] }

def apply (s : ProducePort) (i tsMs : Nat) (jobs : List ProduceJob) : ProducePort :=
  { s with reqs := s.reqs ++ [.produceMany (jobs.map (·.item tsMs))]
           batcher := s.batcher.advance i
             (.applied jobs (writeProduceBatch debug s.queue tsMs jobs).2) }

/-- The task replies to its handlers. -/
def reply (s : ProducePort) (i : Nat) (replies : List (Nat × Response)) : ProducePort :=
  { s with replies := s.replies ++ replies, batcher := s.batcher.advance i .replied }

/-- One step; `none` when the event cannot happen in this state. -/
def step (s : ProducePort) : ProduceEvent → Option ProducePort
  | .check p =>
      if checkFrame s.queue p = .ok () then some { s with admitted := s.admitted ++ [p] } else none
  | .send k => do
      let p ← s.admitted[k]?
      if s.batcher.waiting.length < produceQueueDepth then
        some ({ s with admitted := s.admitted.eraseIdx k }.send p)
      else none
  | .receive => s.batcher.receive.map fun b => { s with batcher := b }
  | .spawn tsMs =>
      (s.batcher.spawn produceWritePipeline (fun first rest => takeBatch (first :: rest))
        (.writing tsMs)).map fun b => { s with batcher := b }
  | .apply i =>
      match s.batcher.flights[i]? with
      | some (.writing tsMs jobs) => some (s.apply debug i tsMs jobs)
      | _ => none
  | .fail i error =>
      match s.batcher.flights[i]? with
      | some (.writing _ jobs) | some (.applied jobs _) =>
          some (s.reply i (jobs.map fun job => (job.reply, mapRaftError error)))
      | _ => none
  | .reply i =>
      match s.batcher.flights[i]? with
      | some (.applied _ replies) => some (s.reply i replies)
      | _ => none
  | .release i =>
      match s.batcher.flights[i]? with
      | some .replied => some { s with batcher := s.batcher.finish i }
      | _ => none
  | .other req => some { s with reqs := s.reqs ++ [req] }

def run (s : ProducePort) (events : List ProduceEvent) : Option ProducePort :=
  Machine.run (step debug) s events

end ProducePort

/-! ## Every request is answered once -/

theorem writeProduceBatch_handlers (debug : AppResponse → String) (q : Queue) (tsMs : Nat)
    (jobs : List ProduceJob) :
    (writeProduceBatch debug q tsMs jobs).2.map Prod.fst = jobs.map (·.reply) := by
  cases hcheck : q.checkProduce (jobs.map (·.item tsMs)) with
  | error reason =>
      rw [writeProduceBatch_error debug hcheck, List.map_map]
      rfl
  | ok u =>
      rw [writeProduceBatch, Queue.apply_produceMany_ok hcheck]
      refine List.map_fst_zip (le_of_eq ?_)
      rw [List.length_map, List.length_map, Queue.produceAll_length, List.length_map]

namespace ProducePort

variable {debug : AppResponse → String}

/-- The jobs that wait and those that have their reply are the jobs sent. -/
structure Ok (s : ProducePort) : Prop where
  answered : ∃ done : List ProduceJob, s.replies.map Prod.fst = done.map (·.reply) ∧
    (done ++ s.pending).Perm s.sent
  numbered : s.sent.map (·.reply) = List.range s.sent.length
  handlers : ∀ jobs replies, .applied jobs replies ∈ s.batcher.flights →
    replies.map Prod.fst = jobs.map (·.reply)
  permits : s.batcher.flights.length ≤ produceWritePipeline

variable {s s' : ProducePort}

section Spawn

variable {tsMs : Nat} {b : Batcher ProduceJob ProduceWriter}
  (hb : s.batcher.spawn produceWritePipeline (fun first rest => takeBatch (first :: rest))
    (.writing tsMs) = some b)
include hb

theorem spawn_pending : (pending { s with batcher := b }).Perm s.pending ∧
    b.flights.length ≤ produceWritePipeline := by
  obtain ⟨batch, hflights, hbatch, hpermits⟩ :=
    Batcher.spawn_eq_some (fun first rest => takeBatch_append (first :: rest)) hb
  refine ⟨Batcher.pending_spawn _ _ hflights hbatch ?_, hpermits⟩
  exact List.Perm.of_eq (List.flatMap_singleton' batch).symm

/-- No task starts with replies. -/
theorem spawn_applied {jobs : List ProduceJob} {replies : List (Nat × Response)}
    (hmem : .applied jobs replies ∈ b.flights) : .applied jobs replies ∈ s.batcher.flights := by
  obtain ⟨batch, hflights, -⟩ :=
    Batcher.spawn_eq_some (fun first rest => takeBatch_append (first :: rest)) hb
  rw [hflights] at hmem
  rcases List.mem_append.mp hmem with hold | hnew
  · exact hold
  · cases List.mem_singleton.mp hnew

end Spawn

theorem Ok.empty : Ok {} where
  answered := ⟨[], rfl, List.Perm.nil⟩
  numbered := rfl
  handlers _ _ h := by cases h
  permits := by decide

theorem Ok.send (h : s.Ok) (p : ProduceFrame) : (s.send p).Ok where
  answered := by
    obtain ⟨done, hdone, hperm⟩ := h.answered
    refine ⟨done, hdone, ?_⟩
    rw [show (s.send p).pending = s.pending ++ _ from Batcher.pending_submit ..,
      ← List.append_assoc]
    exact hperm.append_right _
  numbered := by
    simp only [ProducePort.send, List.map_append, List.length_append, h.numbered]
    exact List.range_succ.symm
  handlers := h.handlers
  permits := h.permits

/-- The batcher takes a step that answers nothing. -/
theorem Ok.batcher (h : s.Ok) {b : Batcher ProduceJob ProduceWriter}
    (hpending : (pending { s with batcher := b }).Perm s.pending)
    (hflights : ∀ jobs replies, .applied jobs replies ∈ b.flights →
      .applied jobs replies ∈ s.batcher.flights)
    (hpermits : b.flights.length ≤ produceWritePipeline) : Ok { s with batcher := b } where
  answered := by
    obtain ⟨done, hdone, hperm⟩ := h.answered
    exact ⟨done, hdone, (hpending.append_left done).trans hperm⟩
  numbered := h.numbered
  handlers jobs replies hmem := h.handlers jobs replies (hflights jobs replies hmem)
  permits := hpermits

theorem Ok.apply (h : s.Ok) {i tsMs : Nat} {jobs : List ProduceJob}
    (hw : s.batcher.flights[i]? = some (.writing tsMs jobs)) : (s.apply debug i tsMs jobs).Ok where
  answered := by
    obtain ⟨done, hdone, hperm⟩ := h.answered
    have hpending : ([] ++ (s.apply debug i tsMs jobs).pending).Perm s.pending :=
      Batcher.pending_advance _ _ hw (List.Perm.refl jobs)
    exact ⟨done, hdone, (hpending.append_left done).trans hperm⟩
  numbered := h.numbered
  handlers jobs' replies hmem := by
    rcases List.mem_or_eq_of_mem_set hmem with hold | hnew
    · exact h.handlers jobs' replies hold
    · cases hnew
      exact writeProduceBatch_handlers ..
  permits := (List.length_set ..).trans_le h.permits

theorem Ok.reply (h : s.Ok) {i : Nat} {w : ProduceWriter} (hw : s.batcher.flights[i]? = some w)
    {replies : List (Nat × Response)} (hreplies : replies.map Prod.fst = w.jobs.map (·.reply)) :
    (s.reply i replies).Ok where
  answered := by
    obtain ⟨done, hdone, hperm⟩ := h.answered
    refine ⟨done ++ w.jobs, ?_, ?_⟩
    · rw [ProducePort.reply, List.map_append, List.map_append, hdone, hreplies]
    · have hpending : (w.jobs ++ (s.reply i replies).pending).Perm s.pending :=
        Batcher.pending_advance _ _ hw (List.Perm.of_eq (List.append_nil w.jobs))
      rw [List.append_assoc]
      exact (hpending.append_left done).trans hperm
  numbered := h.numbered
  handlers jobs rs hmem := by
    rcases List.mem_or_eq_of_mem_set hmem with hold | hnew
    · exact h.handlers jobs rs hold
    · cases hnew
  permits := (List.length_set ..).trans_le h.permits

theorem Ok.step (h : s.Ok) {e : ProduceEvent} (hstep : s.step debug e = some s') : s'.Ok := by
  cases e with
  | check p =>
      obtain ⟨-, hs'⟩ := Option.ite_none_right_eq_some.mp hstep
      cases hs'
      exact { h with }
  | send k =>
      obtain ⟨p, -, hstep⟩ := Option.bind_eq_some_iff.mp hstep
      obtain ⟨-, hs'⟩ := Option.ite_none_right_eq_some.mp hstep
      cases hs'
      have hadmitted : Ok { s with admitted := s.admitted.eraseIdx k } := { h with }
      exact hadmitted.send p
  | receive =>
      obtain ⟨b, hb, rfl⟩ := Option.map_eq_some_iff.mp hstep
      have hflights := (Batcher.receive_eq_some hb).2
      exact h.batcher (List.Perm.of_eq (Batcher.pending_receive _ _ hb))
        (hflights ▸ fun _ _ hmem => hmem) (hflights ▸ h.permits)
  | spawn tsMs =>
      obtain ⟨b, hb, rfl⟩ := Option.map_eq_some_iff.mp hstep
      obtain ⟨hpending, hpermits⟩ := spawn_pending hb
      exact h.batcher hpending (fun _ _ hmem => spawn_applied hb hmem) hpermits
  | apply i =>
      simp only [ProducePort.step] at hstep
      split at hstep
      · rename_i tsMs jobs hw
        cases hstep
        exact h.apply hw
      · cases hstep
  | fail i error =>
      simp only [ProducePort.step] at hstep
      split at hstep
      · rename_i tsMs jobs hw
        cases hstep
        exact h.reply hw (by rw [List.map_map]; rfl)
      · rename_i jobs replies hw
        cases hstep
        exact h.reply hw (by rw [List.map_map]; rfl)
      · cases hstep
  | reply i =>
      simp only [ProducePort.step] at hstep
      split at hstep
      · rename_i jobs replies hw
        cases hstep
        exact h.reply hw (h.handlers jobs replies (List.mem_of_getElem? hw))
      · cases hstep
  | release i =>
      simp only [ProducePort.step] at hstep
      split at hstep
      · rename_i hw
        cases hstep
        exact h.batcher (Batcher.pending_finish _ _ hw rfl)
          (fun _ _ hmem => List.mem_of_mem_eraseIdx hmem)
          ((List.length_eraseIdx_le ..).trans h.permits)
      · cases hstep
  | other req =>
      cases hstep
      exact { h with }

theorem run_ok {events : List ProduceEvent} (hrun : run debug {} events = some s) : s.Ok :=
  Machine.run_keeps (fun _ _ _ h hstep => Ok.step h hstep) Ok.empty hrun

/-! ### Where the answers come from -/

/-- A batch with the job was applied after `base`, and put its message at
the offset or found it there. -/
def Recorded (base : List AppRequest) (s : ProducePort) (id : Nat) (o : Offset) : Prop :=
  ∃ job tsMs pre items post, s.sent[id]? = some job ∧
    s.reqs = pre ++ .produceMany items :: post ∧ base <+: pre ∧ job.item tsMs ∈ items ∧
    Placed (topicLog job.p.topic pre)
      ((({} : Queue).run pre).topicEvents job.p.topic (.produceMany items)) (job.item tsMs) o

theorem Recorded.mono {base : List AppRequest} {id : Nat} {o : Offset} (h : Recorded base s id o)
    (hsent : s.sent <+: s'.sent) (hreqs : s.reqs <+: s'.reqs) : Recorded base s' id o := by
  obtain ⟨job, tsMs, pre, items, post, hjob, hsplit, hbase, hbatch⟩ := h
  obtain ⟨later, hlater⟩ := hreqs
  refine ⟨job, tsMs, pre, items, post ++ later, ?_, ?_, hbase, hbatch⟩
  · obtain ⟨more, hmore⟩ := hsent
    obtain ⟨hlt, -⟩ := List.getElem?_eq_some_iff.mp hjob
    rw [← hmore, List.getElem?_append_left hlt, hjob]
  · rw [← hlater, hsplit, List.append_assoc, List.cons_append]

/-- The offsets that the replies give to requests from the `n`-th on. -/
def Told (base : List AppRequest) (n : Nat) (s : ProducePort) (replies : List (Nat × Response)) :
    Prop :=
  ∀ id o, (id, .produced o) ∈ replies → n ≤ id → Recorded base s id o

theorem Told.mono {base : List AppRequest} {n : Nat} {replies : List (Nat × Response)}
    (h : Told base n s replies) (hsent : s.sent <+: s'.sent) (hreqs : s.reqs <+: s'.reqs) :
    Told base n s' replies := fun id o hmem hn => (h id o hmem hn).mono hsent hreqs

structure Since (base : List AppRequest) (n : Nat) (s : ProducePort) : Prop where
  reqs : base <+: s.reqs
  replies : Told base n s s.replies
  applied : ∀ jobs replies, .applied jobs replies ∈ s.batcher.flights → Told base n s replies

variable {base : List AppRequest} {n : Nat}

theorem Since.mono (h : Since base n s) (hsent : s.sent <+: s'.sent) (hreqs : s.reqs <+: s'.reqs)
    (hreplies : s'.replies = s.replies)
    (hflights : ∀ jobs replies, .applied jobs replies ∈ s'.batcher.flights →
      .applied jobs replies ∈ s.batcher.flights) : Since base n s' where
  reqs := h.reqs.trans hreqs
  replies := hreplies ▸ h.replies.mono hsent hreqs
  applied jobs replies hmem :=
    (h.applied jobs replies (hflights jobs replies hmem)).mono hsent hreqs

theorem Since.reply (h : Since base n s) {i : Nat} {replies : List (Nat × Response)}
    (hreplies : Told base n s replies) : Since base n (s.reply i replies) where
  reqs := h.reqs
  replies id o hmem hn := by
    rcases List.mem_append.mp hmem with hold | hnew
    · exact h.replies id o hold hn
    · exact hreplies id o hnew hn
  applied jobs rs hmem := by
    rcases List.mem_or_eq_of_mem_set hmem with hold | hnew
    · exact h.applied jobs rs hold
    · cases hnew

theorem told_of_error (error : WriteError) (jobs : List ProduceJob) :
    Told base n s (jobs.map fun job => (job.reply, mapRaftError error)) := by
  intro id o hmem
  obtain ⟨job, -, heq⟩ := List.mem_map.mp hmem
  cases error <;> cases heq

theorem Ok.flight_sent (h : s.Ok) {w : ProduceWriter} (hw : w ∈ s.batcher.flights)
    {job : ProduceJob} (hjob : job ∈ w.jobs) : job ∈ s.sent := by
  obtain ⟨done, -, hperm⟩ := h.answered
  refine hperm.subset (List.mem_append_right _ (List.mem_append_left _ ?_))
  exact List.mem_flatMap.mpr ⟨w, hw, hjob⟩

theorem Ok.sent_get (h : s.Ok) {job : ProduceJob} (hjob : job ∈ s.sent) :
    s.sent[job.reply]? = some job := by
  obtain ⟨k, hk⟩ := List.mem_iff_getElem?.mp hjob
  have hreply : (s.sent.map (·.reply))[k]? = some job.reply := by rw [List.getElem?_map, hk]; rfl
  rw [h.numbered, List.getElem?_range (List.getElem?_eq_some_iff.mp hk).1] at hreply
  rwa [← Option.some.inj hreply]

/-- The replies of a batch that is applied now. -/
theorem told_of_apply (hok : s.Ok) (hbase : base <+: s.reqs) {i tsMs : Nat} {jobs : List ProduceJob}
    (hw : s.batcher.flights[i]? = some (.writing tsMs jobs)) :
    Told base n (s.apply debug i tsMs jobs) (writeProduceBatch debug s.queue tsMs jobs).2 := by
  intro id o hmem _
  cases hcheck : s.queue.checkProduce (jobs.map (·.item tsMs)) with
  | error reason =>
      rw [writeProduceBatch_error debug hcheck] at hmem
      obtain ⟨job, -, heq⟩ := List.mem_map.mp hmem
      cases heq
  | ok u =>
      have hresponse := congrArg Prod.snd (Queue.apply_produceMany_ok hcheck)
      simp only [writeProduceBatch, Queue.apply_produceMany_ok hcheck, List.zip_map] at hmem
      obtain ⟨⟨job, o'⟩, hzip, heq⟩ := List.mem_map.mp hmem
      cases heq
      have hjob : job ∈ jobs := (List.of_mem_zip hzip).1
      refine ⟨job, tsMs, s.reqs, _, [], hok.sent_get ?_, rfl, hbase, List.mem_map_of_mem hjob,
        produceMany_placed (x := (job.item tsMs, o)) hresponse ?_⟩
      · exact hok.flight_sent (List.mem_of_getElem? hw) hjob
      · rw [List.zip_map_left]
        exact List.mem_map.mpr ⟨(job, o), hzip, rfl⟩

theorem Since.step (h : Since base n s) (hok : s.Ok) {e : ProduceEvent}
    (hstep : s.step debug e = some s') : Since base n s' := by
  cases e with
  | check p =>
      obtain ⟨-, hs'⟩ := Option.ite_none_right_eq_some.mp hstep
      cases hs'
      exact h.mono (List.prefix_refl _) (List.prefix_refl _) rfl fun _ _ hmem => hmem
  | send k =>
      obtain ⟨p, -, hstep⟩ := Option.bind_eq_some_iff.mp hstep
      obtain ⟨-, hs'⟩ := Option.ite_none_right_eq_some.mp hstep
      cases hs'
      exact h.mono (List.prefix_append ..) (List.prefix_refl _) rfl fun _ _ hmem => hmem
  | receive =>
      obtain ⟨b, hb, rfl⟩ := Option.map_eq_some_iff.mp hstep
      have hflights := (Batcher.receive_eq_some hb).2
      exact h.mono (List.prefix_refl _) (List.prefix_refl _) rfl (hflights ▸ fun _ _ hmem => hmem)
  | spawn tsMs =>
      obtain ⟨b, hb, rfl⟩ := Option.map_eq_some_iff.mp hstep
      refine h.mono (List.prefix_refl _) (List.prefix_refl _) rfl fun jobs replies hmem => ?_
      exact spawn_applied hb hmem
  | apply i =>
      simp only [ProducePort.step] at hstep
      split at hstep
      · rename_i tsMs jobs hw
        cases hstep
        have hreqs : s.reqs <+: (s.apply debug i tsMs jobs).reqs := List.prefix_append ..
        refine ⟨h.reqs.trans hreqs, h.replies.mono (List.prefix_refl _) hreqs, ?_⟩
        intro jobs' replies hmem
        rcases List.mem_or_eq_of_mem_set hmem with hold | hnew
        · exact (h.applied jobs' replies hold).mono (List.prefix_refl _) hreqs
        · cases hnew
          exact told_of_apply hok h.reqs hw
      · cases hstep
  | fail i error =>
      simp only [ProducePort.step] at hstep
      split at hstep
      · cases hstep
        exact h.reply (told_of_error error _)
      · cases hstep
        exact h.reply (told_of_error error _)
      · cases hstep
  | reply i =>
      simp only [ProducePort.step] at hstep
      split at hstep
      · rename_i jobs replies hw
        cases hstep
        exact h.reply (h.applied jobs replies (List.mem_of_getElem? hw))
      · cases hstep
  | release i =>
      simp only [ProducePort.step] at hstep
      split at hstep
      · cases hstep
        exact h.mono (List.prefix_refl _) (List.prefix_refl _) rfl
          fun _ _ hmem => List.mem_of_mem_eraseIdx hmem
      · cases hstep
  | other req =>
      cases hstep
      exact h.mono (List.prefix_refl _) (List.prefix_append ..) rfl fun _ _ hmem => hmem

theorem Ok.handler_lt (h : s.Ok) {replies : List (Nat × Response)} {jobs : List ProduceJob}
    (hjobs : jobs ⊆ s.sent) (hreplies : replies.map Prod.fst = jobs.map (·.reply)) {id : Nat}
    {response : Response} (hmem : (id, response) ∈ replies) : id < s.sent.length := by
  have hid : id ∈ jobs.map (·.reply) := hreplies ▸ List.mem_map_of_mem hmem
  obtain ⟨job, hjob, rfl⟩ := List.mem_map.mp hid
  exact (List.getElem?_eq_some_iff.mp (h.sent_get (hjobs hjob))).1

/-- From any state on, the requests that are still to be sent. -/
theorem Since.run (hok : s.Ok) {events : List ProduceEvent} (hrun : run debug s events = some s') :
    Since s.reqs s.sent.length s' := by
  have hstart : Since s.reqs s.sent.length s := by
    obtain ⟨done, hdone, hperm⟩ := hok.answered
    refine ⟨List.prefix_refl _, fun id o hmem hid => ?_, fun jobs replies hw id o hmem hid => ?_⟩
    · have hsub : done ⊆ s.sent := fun _ hjob => hperm.subset (List.mem_append_left _ hjob)
      have hlt := hok.handler_lt hsub hdone hmem
      omega
    · have hlt := hok.handler_lt (fun _ hjob => hok.flight_sent hw hjob)
        (hok.handlers jobs replies hw) hmem
      omega
  refine (Machine.run_keeps (P := fun t => t.Ok ∧ Since s.reqs s.sent.length t)
    (fun t e t' ht hstep => ⟨ht.1.step hstep, ht.2.step ht.1 hstep⟩) ⟨hok, hstart⟩ hrun).2

end ProducePort

open ProducePort in
/-- Whatever the order in which batches are collected, applied and answered,
each request that was sent is answered once or still on its way, and no more
batches are written at a time than the pipeline has room for. -/
theorem produce_answered_once {debug : AppResponse → String} {events : List ProduceEvent}
    {s : ProducePort} (hrun : run debug {} events = some s) :
    (s.replies.map Prod.fst ++ s.pending.map (·.reply)).Perm (List.range s.sent.length) ∧
      s.batcher.flights.length ≤ produceWritePipeline := by
  have hok := run_ok hrun
  obtain ⟨done, hdone, hperm⟩ := hok.answered
  refine ⟨?_, hok.permits⟩
  rw [hdone, ← List.map_append, ← hok.numbered]
  exact hperm.map _

/-- A frame of one byte for topic `t`. -/
def smallFrame (byte : UInt8) : ProduceFrame := ⟨"t", 0, 0, [byte], "", 0⟩

/-- A request on its way to a task that writes it. -/
def submitted (byte : UInt8) (tsMs : Nat) : List ProduceEvent :=
  [.check (smallFrame byte), .send 0, .receive, .spawn tsMs]

/-- The second of two requests is applied and answered first. -/
theorem produce_answered_once_overtaken :
    ∃ s, ProducePort.run (fun _ => "") {}
        (submitted 1 5 ++ submitted 2 6 ++ [.apply 1, .apply 0, .reply 1]) = some s ∧
      s.replies = [(1, .produced 0)] ∧
      (s.replies.map Prod.fst ++ s.pending.map (·.reply)).Perm (List.range 2) := by
  have hrun : ProducePort.run (fun _ => "") {}
    (submitted 1 5 ++ submitted 2 6 ++ [.apply 1, .apply 0, .reply 1]) = some _ := rfl
  exact ⟨_, hrun, rfl, (produce_answered_once hrun).1⟩

/-! ## What the offsets mean -/

theorem topicLog_mono {τ : TopicId} {reqs reqs' : List AppRequest} (h : reqs <+: reqs')
    (hkeep : .deleteTopic τ ∉ reqs') : topicLog τ reqs <+: topicLog τ reqs' := by
  obtain ⟨more, rfl⟩ := h
  induction more using List.reverseRecOn with
  | nil => rw [List.append_nil]
  | append_singleton more req ih =>
      rw [← List.append_assoc, List.mem_append, List.mem_singleton, not_or] at hkeep
      rw [← List.append_assoc, topicLog_snoc, if_neg (Ne.symm hkeep.2)]
      exact (ih hkeep.1).trans (List.prefix_append ..)

theorem applied_start {reqs pre post : List AppRequest} {req : AppRequest}
    (h : reqs = pre ++ req :: post) : pre ++ [req] <+: reqs :=
  ⟨post, by rw [h, List.append_assoc, List.singleton_append]⟩

theorem topicLog_produceMany (τ : TopicId) (reqs : List AppRequest) (items : List ProduceItem) :
    topicLog τ (reqs ++ [.produceMany items]) =
      topicLog τ reqs ++ (({} : Queue).run reqs).topicEvents τ (.produceMany items) := by
  rw [topicLog_snoc, if_neg nofun]

/-- In a log that is not too long, what comes later has the higher offset. -/
theorem topicLog_increasing {τ : TopicId} {reqs : List AppRequest} {log rest : List TopicEvent}
    (hcount : (appends (topicLog τ reqs)).length ≤ 2 ^ 64) (hsplit : topicLog τ reqs = log ++ rest)
    {x y : ProduceItem × Offset} (hx : x ∈ appends log) (hy : y ∈ appends rest) : x.2 < y.2 := by
  have hincreasing := LogMatches.increasing ((logMatches_invariant τ).run reqs).holds hcount
  rw [hsplit, appends_append] at hincreasing
  exact (List.pairwise_append.mp hincreasing).2.2 x hx y hy

theorem dedupKey_eq {item item' : ProduceItem} (h : item'.dedupKey = item.dedupKey) :
    item'.producerId = item.producerId ∧ item'.seq = item.seq :=
  ⟨congrArg (fun key => (ofLex key).1) h, congrArg (fun key => (ofLex key).2) h⟩

theorem Placed.mem {log events : List TopicEvent} {item : ProduceItem} {o : Offset}
    (h : Placed log events item o) : ∃ item', (item', o) ∈ appends (log ++ events) ∧
      (item' = item ∨ item.producerId ≠ "" ∧
        item'.producerId = item.producerId ∧ item'.seq = item.seq) := by
  rcases h with hnew | ⟨hid, item', hmem, hkey⟩
  · exact ⟨item, by rw [appends_append]; exact List.mem_append_right _ hnew, .inl rfl⟩
  · exact ⟨item', hmem, .inr ⟨hid, dedupKey_eq hkey⟩⟩

open ProducePort in
/-- An offset that a client is given is that of its message, or that of a
message with the same producer id and sequence number: the log of the topic
had it there when the batch with the message had been applied. -/
theorem produced_recorded {debug : AppResponse → String} {events : List ProduceEvent}
    {s : ProducePort} (hrun : run debug {} events = some s) {id : Nat} {o : Offset}
    (hreply : (id, .produced o) ∈ s.replies) :
    ∃ job tsMs pre items post item, s.sent[id]? = some job ∧
      s.reqs = pre ++ .produceMany items :: post ∧ job.item tsMs ∈ items ∧
      (item, o) ∈ appends (topicLog job.p.topic (pre ++ [.produceMany items])) ∧
      (item = job.item tsMs ∨ job.p.producerId ≠ "" ∧
        item.producerId = job.p.producerId ∧ item.seq = job.p.seq) := by
  obtain ⟨job, tsMs, pre, items, post, hjob, hreqs, -, hbatch, hplaced⟩ :=
    (Since.run Ok.empty hrun).replies id o hreply (Nat.zero_le id)
  obtain ⟨item, hmem, hitem⟩ := hplaced.mem
  refine ⟨job, tsMs, pre, items, post, item, hjob, hreqs, hbatch, ?_, hitem⟩
  rwa [topicLog_produceMany]

/-- The request that was overtaken has the second offset. -/
theorem produced_recorded_overtaken :
    ∃ s, ProducePort.run (fun _ => "") {}
        (submitted 1 5 ++ submitted 2 6 ++ [.apply 1, .apply 0, .reply 0]) = some s ∧
      ∃ job tsMs pre items post, s.sent[0]? = some job ∧
        s.reqs = pre ++ .produceMany items :: post ∧ job.item tsMs ∈ items ∧
        (job.item tsMs, 1) ∈ appends (topicLog job.p.topic (pre ++ [.produceMany items])) := by
  have hrun : ProducePort.run (fun _ => "") {}
    (submitted 1 5 ++ submitted 2 6 ++ [.apply 1, .apply 0, .reply 0]) = some _ := rfl
  obtain ⟨job, tsMs, pre, items, post, item, hjob, hreqs, hbatch, hmem, hitem⟩ :=
    produced_recorded hrun (List.mem_singleton_self (0, Response.produced 1))
  have hown : item = job.item tsMs := by
    refine hitem.resolve_right ?_
    cases hjob
    exact fun hid => hid.1 rfl
  exact ⟨_, hrun, job, tsMs, pre, items, post, hjob, hreqs, hbatch, hown ▸ hmem⟩

open ProducePort in
/-- A message that is sent when another has been answered comes after it in
the topic, unless it repeats a message that was there by then. -/
theorem produces_in_order {debug : AppResponse → String} {events more : List ProduceEvent}
    {s s' : ProducePort} (hrun : run debug {} events = some s) (hrest : run debug s more = some s')
    {a b : Nat} {oa ob : Offset} {ja jb : ProduceJob} (ha : s.sent[a]? = some ja)
    (hreplied : (a, .produced oa) ∈ s.replies) (hsent : s.sent.length ≤ b)
    (hb : s'.sent[b]? = some jb) (hreply : (b, .produced ob) ∈ s'.replies)
    (htopic : jb.p.topic = ja.p.topic) (hkeep : .deleteTopic ja.p.topic ∉ s'.reqs)
    (hcount : (appends (topicLog ja.p.topic s'.reqs)).length ≤ 2 ^ 64) :
    oa < ob ∨ jb.p.producerId ≠ "" ∧ ∃ item, (item, ob) ∈ appends (topicLog ja.p.topic s.reqs) ∧
      item.producerId = jb.p.producerId ∧ item.seq = jb.p.seq := by
  have hlater := Since.run (run_ok hrun) hrest
  have hkeep' : .deleteTopic ja.p.topic ∉ s.reqs := fun hmem => hkeep (hlater.reqs.subset hmem)
  -- the first message is in the log when the second is sent
  obtain ⟨job, _, pre, items, post, hjob, hreqs, -, -, hplaced⟩ :=
    (Since.run Ok.empty hrun).replies a oa hreplied (Nat.zero_le a)
  cases ha.symm.trans hjob
  obtain ⟨first, hmem, -⟩ := hplaced.mem
  have hfirst : (first, oa) ∈ appends (topicLog ja.p.topic s.reqs) := by
    obtain ⟨rest, hrest⟩ := topicLog_mono (applied_start hreqs) hkeep'
    rw [← hrest, topicLog_produceMany, appends_append]
    exact List.mem_append_left _ hmem
  -- and the batch of the second is applied after that
  obtain ⟨job, tsMs, pre, items, post, hjob, hreqs, hbase, -, hplaced⟩ :=
    hlater.replies b ob hreply hsent
  cases hb.symm.trans hjob
  rw [htopic] at hplaced
  obtain ⟨rest, hlog⟩ := topicLog_mono (applied_start hreqs) hkeep
  rw [topicLog_produceMany] at hlog
  obtain ⟨mid, hmid⟩ := topicLog_mono hbase fun hmem =>
    hkeep (hreqs ▸ List.mem_append_left _ hmem)
  rw [← hmid, List.append_assoc, List.append_assoc] at hlog
  have hafter : ∀ y ∈ appends (mid ++ (_ ++ rest)), oa < y.2 := fun y hy =>
    topicLog_increasing hcount hlog.symm hfirst hy
  simp only [appends_append, List.mem_append] at hafter
  rcases hplaced with hnew | ⟨hid, item, hmem, hkey⟩
  · exact .inl (hafter _ (.inr (.inl hnew)))
  · rw [← hmid] at hmem
    simp only [appends_append, List.mem_append, or_assoc] at hmem
    rcases hmem with hold | hmid | hnew
    · exact .inr ⟨hid, item, hold, dedupKey_eq hkey⟩
    · exact .inl (hafter _ (.inl hmid))
    · exact .inl (hafter _ (.inr (.inl hnew)))

/-- Two messages, the second sent after the answer to the first. -/
theorem produces_in_order_two :
    ∃ s s' oa ob,
      ProducePort.run (fun _ => "") {} (submitted 1 5 ++ [.apply 0, .reply 0]) = some s ∧
      s.run (fun _ => "") (submitted 2 6 ++ [.apply 1, .reply 1]) = some s' ∧
      s'.replies = [(0, .produced oa), (1, .produced ob)] ∧ oa < ob := by
  have hrun : ProducePort.run (fun _ => "") {} (submitted 1 5 ++ [.apply 0, .reply 0]) =
    some _ := rfl
  refine ⟨_, _, 0, 1, hrun, rfl, rfl, ?_⟩
  rcases @produces_in_order _ _ (submitted 2 6 ++ [.apply 1, .reply 1]) _ _ hrun rfl 0 1 0 1
    ⟨smallFrame 1, 0⟩ ⟨smallFrame 2, 1⟩ rfl (List.mem_singleton_self _) le_rfl rfl
    (List.mem_cons_of_mem _ (List.mem_singleton_self _)) rfl (by decide) (by decide)
    with hlt | ⟨hid, -⟩
  · exact hlt
  · exact absurd rfl hid

end HermesMq
