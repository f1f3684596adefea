import HermesMq.TopicLimit

/-!
# Batched produces

A batch of produces is one request, `ProduceMany`. On a queue within the
topic limit it is either refused as a whole, and then changes nothing, or
it is the sequence of its single produces (`produceMany_is_sequence`).

The client port makes such batches of whatever produces wait for it, from
any clients. It checks each produce alone and sends the one response of
the batch to all of them. Two producers of different new topics, both of
which had room when they were checked, can therefore fail each other and
everyone else in their batch (`batch_replies_iff`).
-/

namespace HermesMq

/-! ## A batch and its items -/

namespace Queue

/-- The items as single produces, one after the other. -/
def produceEach (q : Queue) : List ProduceItem → Queue × List AppResponse
  | [] => (q, [])
  | item :: rest =>
      let (q, response) := q.apply item.request
      let (q, responses) := produceEach q rest
      (q, response :: responses)

theorem freshTopics_subset (q : Queue) {items items' : List ProduceItem}
    (h : items ⊆ items') : q.freshTopics items ⊆ q.freshTopics items' :=
  Finset.filter_subset_filter _ fun topic htopic => by
    rw [List.mem_toFinset] at htopic ⊢
    exact List.map_subset _ h htopic

/-- The check of a batch, one item at a time. -/
theorem checkProduce_cons {q : Queue} {item : ProduceItem} {rest : List ProduceItem} :
    q.checkProduce (item :: rest) = .ok () ↔
      q.checkProduce [item] = .ok () ∧ (q.produceOne item).1.checkProduce rest = .ok () := by
  simp only [checkProduce_ok_iff, produceOne_size_add_fresh, List.forall_mem_cons]
  constructor
  · rintro ⟨⟨hitem, hrest⟩, hsize⟩
    have hsub : q.freshTopics [item] ⊆ q.freshTopics (item :: rest) :=
      freshTopics_subset q (List.cons_subset_cons item (List.nil_subset rest))
    have hle := (Nat.add_le_add_left (Finset.card_le_card hsub) _).trans hsize
    exact ⟨⟨⟨hitem, List.forall_mem_nil _⟩, hle⟩, hrest, hsize⟩
  · rintro ⟨⟨⟨hitem, -⟩, -⟩, hrest, hsize⟩
    exact ⟨⟨hitem, hrest⟩, hsize⟩

theorem produceEach_cons {q : Queue} {item : ProduceItem} (h : q.checkProduce [item] = .ok ())
    (rest : List ProduceItem) :
    q.produceEach (item :: rest) = (((q.produceOne item).1.produceEach rest).1,
      .produced (q.produceOne item).2 :: ((q.produceOne item).1.produceEach rest).2) := by
  rw [produceEach, apply_produce_ok h]

/-- Items that pass the check of their batch are produced one by one as
the batch produces them. -/
theorem produceEach_of_ok {q : Queue} {items : List ProduceItem}
    (h : q.checkProduce items = .ok ()) :
    q.produceEach items =
      ((q.produceAll items).1, (q.produceAll items).2.map AppResponse.produced) := by
  induction items generalizing q with
  | nil => rfl
  | cons item rest ih =>
      obtain ⟨hitem, hrest⟩ := checkProduce_cons.mp h
      simp only [produceEach_cons hitem, ih hrest, produceAll, List.map_cons]

/-- If none of the items is refused alone, the batch passes its check. -/
theorem checkProduce_of_produceEach {q : Queue} (hq : q.topics.size ≤ maxTopics)
    {items : List ProduceItem} (h : ∀ r ∈ (q.produceEach items).2, ¬r.Rejected) :
    q.checkProduce items = .ok () := by
  induction items generalizing q with
  | nil => exact checkProduce_ok_iff.mpr ⟨fun _ h => absurd h List.not_mem_nil, hq⟩
  | cons item rest ih =>
      have hitem : q.checkProduce [item] = .ok () := by
        by_contra hne
        exact h _ List.mem_cons_self (produce_rejected_iff.mpr hne)
      have hle := (checkProduce_ok_iff.mp hitem).2
      rw [← produceOne_size_add_fresh] at hle
      rw [produceEach_cons hitem] at h
      exact checkProduce_cons.mpr ⟨hitem, ih ((Nat.le_add_right ..).trans hle)
        fun r hr => h r (List.mem_cons_of_mem _ hr)⟩

theorem apply_produceMany_ok {q : Queue} {items : List ProduceItem}
    (h : q.checkProduce items = .ok ()) : q.apply (.produceMany items) =
      ((q.produceAll items).1, .producedMany (q.produceAll items).2) := by
  rw [apply]
  simp only [h]

theorem apply_produceMany_error {q : Queue} {items : List ProduceItem} {reason : String}
    (h : q.checkProduce items = .error reason) :
    q.apply (.produceMany items) = (q, .rejected reason) := by
  rw [apply]
  simp only [h]

end Queue

/-- A batch on a queue within the topic limit is refused if and only if
one of its items would be, refused it changes nothing, and accepted it is
the sequence of its single produces: the same state and the same
offsets. -/
theorem produceMany_is_sequence {q : Queue} (hq : q.topics.size ≤ maxTopics)
    (items : List ProduceItem) :
    ((q.apply (.produceMany items)).2.Rejected ↔ ∃ r ∈ (q.produceEach items).2, r.Rejected) ∧
    ((q.apply (.produceMany items)).2.Rejected → (q.apply (.produceMany items)).1 = q) ∧
    (¬(q.apply (.produceMany items)).2.Rejected →
      ∃ offsets, q.apply (.produceMany items) =
          ((q.produceEach items).1, .producedMany offsets) ∧
        (q.produceEach items).2 = offsets.map .produced) := by
  cases hcheck : q.checkProduce items with
  | error reason =>
      rw [Queue.apply_produceMany_error hcheck]
      have hrejected : (AppResponse.rejected reason).Rejected := ⟨reason, rfl⟩
      refine ⟨iff_of_true hrejected ?_, fun _ => rfl, fun h => absurd hrejected h⟩
      by_contra hnone
      simp only [not_exists, not_and] at hnone
      rw [Queue.checkProduce_of_produceEach hq hnone] at hcheck
      cases hcheck
  | ok u =>
      rw [Queue.apply_produceMany_ok hcheck, Queue.produceEach_of_ok hcheck]
      have haccepted : ∀ offsets, ¬(AppResponse.producedMany offsets).Rejected :=
        fun offsets ⟨reason, h⟩ => by cases h
      refine ⟨iff_of_false (haccepted _) ?_, fun h => absurd h (haccepted _), fun _ =>
        ⟨_, rfl, rfl⟩⟩
      rintro ⟨r, hr, reason, rfl⟩
      obtain ⟨offset, -, h⟩ := List.mem_map.mp hr
      cases h

/-- A batch that repeats a key: the second item gets the first one's
offset, as it does alone. -/
theorem produceMany_is_sequence_duplicate :
    let items : List ProduceItem :=
      [⟨"a", .default, .raw, [1], "p", 1, 5⟩, ⟨"b", .default, .raw, [2], "", 0, 5⟩,
        ⟨"a", .default, .raw, [3], "p", 1, 5⟩]
    ¬(({} : Queue).apply (.produceMany items)).2.Rejected ∧
      ∃ offsets, ({} : Queue).apply (.produceMany items) =
          ((({} : Queue).produceEach items).1, .producedMany offsets) ∧
        (({} : Queue).produceEach items).2 = [.produced 0, .produced 0, .produced 0] := by
  intro items
  have haccepted : ¬(({} : Queue).apply (.produceMany items)).2.Rejected :=
    fun ⟨reason, h⟩ => by cases h
  obtain ⟨offsets, happly, -⟩ :=
    (produceMany_is_sequence (q := {}) (Nat.zero_le _) items).2.2 haccepted
  exact ⟨haccepted, offsets, happly, by decide⟩

/-! ## The client port -/

def maxPayloadBytes : Nat := 1024 * 1024

def maxPriority : Nat := 7

def produceBatchMaxItems : Nat := 256

def produceBatchMaxBytes : Nat := 512 * 1024

/-- A client's produce, as it comes over the wire. -/
structure ProduceFrame where
  topic : String
  priority : Nat
  contentType : Nat
  payload : Bytes
  producerId : String
  seq : Nat
deriving DecidableEq

structure StatsResult where
  lastApplied : Nat
  currentLeader : Nat
  currentTerm : Nat
  lastLogIndex : Nat
  isLeader : Bool
  topics : Nat
  messages : Nat
  inFlight : Nat
deriving DecidableEq

inductive Response where
  | ok
  | produced (offset : Offset)
  | polled (items : List Delivered)
  | error (code message leaderAddr : String) (retryAfterMs : Nat)
  | stats (result : StatsResult)
deriving DecidableEq

def respError (code message : String) : Response := .error code message "" 0

def appResponseToProto : AppResponse → Response
  | .produced offset => .produced offset
  | .polled items => .polled items
  | .acked | .nacked | .committed | .topicCreated | .topicDeleted | .rateLimitSet | .retentionSet
  | .noOp => .ok
  | .rejected reason => respError "rejected" reason
  | .producedMany _ => respError "internal" "unexpected batched produce response"

def checkLen (kind value : String) (max : Nat) : Except Response Unit :=
  if value.utf8ByteSize > max then
    .error (respError "bad_request" s!"{kind} is {value.utf8ByteSize} bytes; max is {max}")
  else .ok ()

/-- Turn away a request whose names the state machine would refuse. -/
def checkNames (topic group : String) : Except Response Unit := do
  checkLen "topic name" topic maxNameBytes
  checkLen "group name" group maxNameBytes

/-- `checkNames` and the topic limit, for requests that can create one. -/
def checkNewTopic (q : Queue) (topic : String) : Except Response Unit := do
  checkNames topic ""
  if q.topicAdmits topic then .ok ()
  else .error (respError "rejected" s!"topic limit of {maxTopics} reached")

/-- The checks of `handle_produce`, before the produce is queued. -/
def checkFrame (q : Queue) (p : ProduceFrame) : Except Response Unit := do
  if p.payload.length > maxPayloadBytes then
    .error (respError "payload_too_large"
      s!"payload is {p.payload.length} bytes; max is {maxPayloadBytes}")
  else
    checkLen "producer id" p.producerId maxProducerIdBytes
    checkNewTopic q p.topic

/-- A produce that waits for the batcher, and where its reply goes. -/
structure ProduceJob where
  p : ProduceFrame
  reply : Nat
deriving DecidableEq

/-- The inner loop of `produce_batcher`, over the jobs that wait. -/
def collectJobs (jobs : List ProduceJob) (bytes : Nat) :
    List ProduceJob → List ProduceJob × List ProduceJob
  | [] => (jobs, [])
  | job :: rest =>
      if jobs.length < produceBatchMaxItems ∧ bytes < produceBatchMaxBytes then
        collectJobs (jobs ++ [job]) (bytes + job.p.payload.length) rest
      else (jobs, job :: rest)

/-- The next batch, and what is left waiting. -/
def takeBatch : List ProduceJob → List ProduceJob × List ProduceJob
  | [] => ([], [])
  | first :: rest => collectJobs [first] first.p.payload.length rest

def ctFromU32 : Nat → ContentType
  | 1 => .text
  | 2 => .json
  | 3 => .msgPack
  | _ => .raw

/-- `Priority(priority.min(MAX_PRIORITY) as u8)`. -/
def ProduceFrame.wirePriority (p : ProduceFrame) : Priority :=
  ⟨min p.priority maxPriority, Nat.lt_of_le_of_lt (Nat.min_le_right ..) (by decide)⟩

def ProduceJob.item (tsMs : Nat) (job : ProduceJob) : ProduceItem :=
  ⟨job.p.topic, job.p.wirePriority, ctFromU32 job.p.contentType, job.p.payload, job.p.producerId,
    job.p.seq, tsMs⟩

/-- Write a batch and send the replies; `debug` prints a response. -/
def writeProduceBatch (debug : AppResponse → String) (q : Queue) (tsMs : Nat)
    (jobs : List ProduceJob) : Queue × List (Nat × Response) :=
  match q.apply (.produceMany (jobs.map (·.item tsMs))) with
  | (q, .producedMany offsets) =>
      (q, (jobs.map (·.reply)).zip (offsets.map Response.produced))
  | (q, other) =>
      (q, jobs.map fun job =>
        (job.reply, respError "internal" s!"unexpected batch response: {debug other}"))

/-- The same jobs written one at a time. -/
def writeProduceEach (q : Queue) (tsMs : Nat) (jobs : List ProduceJob) :
    Queue × List (Nat × Response) :=
  let (q, responses) := q.produceEach (jobs.map (·.item tsMs))
  (q, (jobs.map (·.reply)).zip (responses.map appResponseToProto))

/-! ## Who fails whom -/

theorem collectJobs_append (jobs : List ProduceJob) (bytes : Nat) (waiting : List ProduceJob) :
    (collectJobs jobs bytes waiting).1 ++ (collectJobs jobs bytes waiting).2 = jobs ++ waiting := by
  induction waiting generalizing jobs bytes with
  | nil => rfl
  | cons job rest ih =>
      rw [collectJobs]
      split_ifs
      · rw [ih, List.append_assoc, List.singleton_append]
      · rfl

/-- Batching neither loses, repeats nor reorders a job. -/
theorem takeBatch_append (waiting : List ProduceJob) :
    (takeBatch waiting).1 ++ (takeBatch waiting).2 = waiting := by
  cases waiting with
  | nil => rfl
  | cons first rest => exact collectJobs_append ..

theorem checkLen_ok_iff {kind value : String} {max : Nat} :
    checkLen kind value max = .ok () ↔ value.utf8ByteSize ≤ max := by
  unfold checkLen
  split_ifs with h
  · exact ⟨fun h' => (by cases h'), fun hle => absurd h (not_lt.mpr hle)⟩
  · exact ⟨fun _ => not_lt.mp h, fun _ => rfl⟩

theorem checkNames_ok_iff {topic group : String} :
    checkNames topic group = .ok () ↔
      topic.utf8ByteSize ≤ maxNameBytes ∧ group.utf8ByteSize ≤ maxNameBytes := by
  rw [checkNames, bind_ok_iff, checkLen_ok_iff, checkLen_ok_iff]

theorem checkNewTopic_ok_iff {q : Queue} {topic : String} :
    checkNewTopic q topic = .ok () ↔
      topic.utf8ByteSize ≤ maxNameBytes ∧ q.topicAdmits topic = true := by
  have hgroup : "".utf8ByteSize ≤ maxNameBytes := by decide
  rw [checkNewTopic, bind_ok_iff, checkNames_ok_iff, and_iff_left hgroup]
  refine and_congr_right fun _ => ?_
  split_ifs with hadmits
  · exact iff_of_true rfl hadmits
  · exact iff_of_false (fun h => by cases h) hadmits

theorem checkFrame_ok_iff {q : Queue} {p : ProduceFrame} :
    checkFrame q p = .ok () ↔ p.payload.length ≤ maxPayloadBytes ∧
      p.producerId.utf8ByteSize ≤ maxProducerIdBytes ∧ p.topic.utf8ByteSize ≤ maxNameBytes ∧
      q.topicAdmits p.topic = true := by
  unfold checkFrame
  split_ifs with hlong
  · exact iff_of_false (fun h => by cases h) fun h => absurd h.1 (not_le.mpr hlong)
  · rw [and_iff_right (not_lt.mp hlong), bind_ok_iff, checkLen_ok_iff, checkNewTopic_ok_iff]

/-- What a job that passed the checks of the client port has. -/
theorem checkFrame_ok {q : Queue} {job : ProduceJob} (h : checkFrame q job.p = .ok ())
    (tsMs : Nat) : (job.item tsMs).NamesOk ∧ q.topicAdmits job.p.topic = true := by
  obtain ⟨-, hid, hname, hadmits⟩ := checkFrame_ok_iff.mp h
  exact ⟨⟨hname, hid⟩, hadmits⟩

theorem Queue.produceAll_length (q : Queue) (items : List ProduceItem) :
    (q.produceAll items).2.length = items.length := by
  induction items generalizing q with
  | nil => rfl
  | cons item rest ih => exact congrArg Nat.succ (ih _)

/-- A batch that passes its check is answered as its jobs are one by one,
and every job is answered with an offset. -/
theorem writeProduceBatch_ok (debug : AppResponse → String) {q : Queue} {tsMs : Nat}
    {jobs : List ProduceJob} (h : q.checkProduce (jobs.map (·.item tsMs)) = .ok ()) :
    writeProduceBatch debug q tsMs jobs = writeProduceEach q tsMs jobs ∧
      ∀ job ∈ jobs, ∃ offset,
        (job.reply, .produced offset) ∈ (writeProduceBatch debug q tsMs jobs).2 := by
  have hbatch : writeProduceBatch debug q tsMs jobs =
      ((q.produceAll (jobs.map (·.item tsMs))).1, (jobs.map (·.reply)).zip
        ((q.produceAll (jobs.map (·.item tsMs))).2.map Response.produced)) := by
    rw [writeProduceBatch, Queue.apply_produceMany_ok h]
  constructor
  · rw [hbatch, writeProduceEach, Queue.produceEach_of_ok h]
    simp only [List.map_map]
    rfl
  · intro job hjob
    rw [hbatch]
    have hlen : (jobs.map (·.reply)).length =
        ((q.produceAll (jobs.map (·.item tsMs))).2.map Response.produced).length := by
      rw [List.length_map, List.length_map, Queue.produceAll_length, List.length_map]
    have hmem : job.reply ∈ ((jobs.map (·.reply)).zip
        ((q.produceAll (jobs.map (·.item tsMs))).2.map Response.produced)).map Prod.fst := by
      rw [List.map_fst_zip hlen.le]
      exact List.mem_map.mpr ⟨job, hjob, rfl⟩
    obtain ⟨⟨reply, response⟩, hpair, rfl⟩ := List.mem_map.mp hmem
    obtain ⟨offset, -, rfl⟩ := List.mem_map.mp (List.of_mem_zip hpair).2
    exact ⟨offset, hpair⟩

/-- A batch that fails its check changes nothing, and every job of it gets
the same error. -/
theorem writeProduceBatch_error (debug : AppResponse → String) {q : Queue} {tsMs : Nat}
    {jobs : List ProduceJob} {reason : String}
    (h : q.checkProduce (jobs.map (·.item tsMs)) = .error reason) :
    writeProduceBatch debug q tsMs jobs = (q, jobs.map fun job =>
      (job.reply, respError "internal"
        s!"unexpected batch response: {debug (.rejected reason)}")) := by
  rw [writeProduceBatch, Queue.apply_produceMany_error h]

/-- A job admitted on a queue within the limit is accepted alone. -/
theorem checkProduce_of_admitted {q : Queue} (hq : q.topics.size ≤ maxTopics) {job : ProduceJob}
    (h : checkFrame q job.p = .ok ()) (tsMs : Nat) : q.checkProduce [job.item tsMs] = .ok () := by
  obtain ⟨hnames, hadmits⟩ := checkFrame_ok h tsMs
  by_cases hold : q.topics.contains job.p.topic = true
  · exact Queue.checkProduce_existing hq hnames hold
  · have hlt : q.topics.size < maxTopics := by
      simpa [Queue.topicAdmits, hold] using hadmits
    refine Queue.checkProduce_ok_iff.mpr ⟨List.forall_mem_singleton.mpr hnames, ?_⟩
    rw [Queue.card_freshTopics_singleton, show (job.item tsMs).topic = job.p.topic from rfl,
      if_neg hold]
    exact hlt

/-- Jobs that were each admitted on the queue are answered by their batch
as they would be one at a time, and those that name an existing topic with
an offset, exactly if the queue has room for all their new topics
together. -/
theorem batch_replies_iff (debug : AppResponse → String) (reqs : List AppRequest) (tsMs : Nat)
    {jobs : List ProduceJob}
    (hadmitted : ∀ job ∈ jobs, checkFrame (({} : Queue).run reqs) job.p = .ok ()) :
    ((writeProduceBatch debug (({} : Queue).run reqs) tsMs jobs).2 =
        (writeProduceEach (({} : Queue).run reqs) tsMs jobs).2 ∧
      ∀ job ∈ jobs, (({} : Queue).run reqs).topics.contains job.p.topic = true →
        ∃ offset, (job.reply, .produced offset) ∈
          (writeProduceBatch debug (({} : Queue).run reqs) tsMs jobs).2) ↔
      (({} : Queue).run reqs).topics.size +
        ((({} : Queue).run reqs).freshTopics (jobs.map (·.item tsMs))).card ≤ maxTopics := by
  have hq : (({} : Queue).run reqs).topics.size ≤ maxTopics :=
    Queue.run_size_le (Nat.zero_le _) reqs
  generalize ({} : Queue).run reqs = q at *
  have hnames : ∀ item ∈ jobs.map (·.item tsMs), item.NamesOk := by
    intro item hitem
    obtain ⟨job, hjob, rfl⟩ := List.mem_map.mp hitem
    exact (checkFrame_ok (hadmitted job hjob) tsMs).1
  constructor
  · rintro ⟨hsame, -⟩
    by_contra hover
    have hcheck := Queue.checkProduce_over_limit hnames (not_le.mp hover)
    cases jobs with
    | nil => exact hover hq
    | cons first rest =>
        have hfirst := checkProduce_of_admitted hq (hadmitted first List.mem_cons_self) tsMs
        rw [writeProduceBatch_error debug hcheck] at hsame
        simp only [writeProduceEach, List.map_cons, Queue.produceEach_cons hfirst,
          List.zip_cons_cons] at hsame
        cases hsame
  · intro hroom
    obtain ⟨hsame, hproduced⟩ :=
      writeProduceBatch_ok debug (Queue.checkProduce_ok_iff.mpr ⟨hnames, hroom⟩)
    exact ⟨congrArg Prod.snd hsame, fun job hjob _ => hproduced job hjob⟩

/-- Two jobs for new topics on an empty queue. -/
theorem batch_replies_two_topics :
    let jobs : List ProduceJob := [⟨⟨"a", 0, 0, [1], "", 0⟩, 0⟩, ⟨⟨"b", 0, 0, [2], "", 0⟩, 1⟩]
    (writeProduceBatch (fun _ => "") (({} : Queue).run []) 5 jobs).2 =
      (writeProduceEach (({} : Queue).run []) 5 jobs).2 := by
  intro jobs
  have hadmitted : ∀ job ∈ jobs, checkFrame (({} : Queue).run []) job.p = .ok () := by
    rw [List.forall_mem_cons, List.forall_mem_singleton]
    exact ⟨rfl, rfl⟩
  exact ((batch_replies_iff (fun _ => "") [] 5 hadmitted).mpr (by decide)).1

/-- Creating new topics, as many as there is room for. -/
theorem run_createTopics {q : Queue} {names : List TopicId} (hnodup : names.Nodup)
    (hnames : ∀ τ ∈ names, τ.utf8ByteSize ≤ maxNameBytes)
    (hnew : ∀ τ ∈ names, q.topics.get? τ = none)
    (hroom : q.topics.size + names.length ≤ maxTopics) :
    (q.run (names.map .createTopic)).topics.size = q.topics.size + names.length ∧
      ∀ τ, (q.run (names.map .createTopic)).topics.get? τ =
        if τ ∈ names then some {} else q.topics.get? τ := by
  induction names generalizing q with
  | nil => exact ⟨rfl, fun τ => rfl⟩
  | cons name rest ih =>
      rw [List.nodup_cons] at hnodup
      rw [List.length_cons] at hroom ⊢
      have hget := hnew name List.mem_cons_self
      have hnot : q.topics.contains name = false := OrdMap.contains_eq_false.mpr hget
      have hcheck : q.checkTopic name = .ok () := by
        refine Queue.checkTopic_ok_iff.mpr ⟨hnames name List.mem_cons_self, ?_⟩
        simp only [Queue.topicAdmits, hnot, Bool.false_or, decide_eq_true_eq]
        omega
      have happly : (q.apply (.createTopic name)).1 = q.putTopic name {} := by
        simp only [Queue.apply, hcheck, Queue.topicOrDefault, hget, Option.getD_none]
      have hsize : (q.putTopic name {}).topics.size = q.topics.size + 1 := by
        rw [Queue.putTopic_size, hnot]
        rfl
      obtain ⟨hlen, hafter⟩ := ih (q := q.putTopic name {}) hnodup.2
        (fun τ hτ => hnames τ (List.mem_cons_of_mem _ hτ))
        (fun τ hτ => by
          have hne : τ ≠ name := fun h => hnodup.1 (h ▸ hτ)
          rw [Queue.putTopic_topics, if_neg hne]
          exact hnew τ (List.mem_cons_of_mem _ hτ))
        (by omega)
      rw [List.map_cons, Queue.run_cons, happly]
      refine ⟨by omega, fun τ => ?_⟩
      rw [hafter, Queue.putTopic_topics]
      by_cases hτ : τ = name
      · simp [hτ]
      · simp [hτ]

theorem maxTopics_gt_one : 1 < maxTopics := Nat.lt_of_sub_pos (Nat.succ_pos 9998)

/-- The requests that leave room for one more topic. -/
def oneBelowLimit : List AppRequest :=
  ((List.range (maxTopics - 1)).map shortName).map .createTopic

/-- A job for an existing topic in a batch with two for new ones. -/
def crowdedBatch : List ProduceJob :=
  [⟨⟨shortName 0, 0, 0, [1], "", 0⟩, 0⟩, ⟨⟨shortName maxTopics, 0, 0, [2], "", 0⟩, 1⟩,
    ⟨⟨shortName (maxTopics + 1), 0, 0, [3], "", 0⟩, 2⟩]

theorem oneBelowLimit_topics :
    (({} : Queue).run oneBelowLimit).topics.size = maxTopics - 1 ∧
      ∀ i < maxTopics + 2, (({} : Queue).run oneBelowLimit).topics.get? (shortName i) =
        if i < maxTopics - 1 then some {} else none := by
  have hnames : ∀ τ ∈ (List.range (maxTopics - 1)).map shortName,
      τ.utf8ByteSize ≤ maxNameBytes := by
    intro τ hτ
    obtain ⟨i, -, rfl⟩ := List.mem_map.mp hτ
    exact shortName_size i
  have hlen : ((List.range (maxTopics - 1)).map shortName).length = maxTopics - 1 := by
    rw [List.length_map, List.length_range]
  have hempty : ({} : Queue).topics.size = 0 := rfl
  obtain ⟨hsize, hget⟩ := run_createTopics (shortName_nodup (by decide)) hnames
    (fun _ _ => OrdMap.get?_empty _) (by rw [hlen, hempty]; omega)
  refine ⟨by rw [oneBelowLimit, hsize, hlen, hempty, Nat.zero_add], fun i hi => ?_⟩
  rw [oneBelowLimit, hget]
  refine if_congr ?_ rfl rfl
  rw [List.mem_map]
  constructor
  · rintro ⟨j, hj, hji⟩
    rw [List.mem_range] at hj
    have hbound : maxTopics + 2 ≤ 0xd800 := by decide
    rwa [← shortName_inj (hj.trans_le (by decide)) (hi.trans_le hbound) hji]
  · exact fun hi => ⟨i, List.mem_range.mpr hi, rfl⟩

theorem oneBelowLimit_first :
    (({} : Queue).run oneBelowLimit).topics.get? (shortName 0) = some {} :=
  (oneBelowLimit_topics.2 0 (Nat.succ_pos _)).trans
    (if_pos (Nat.sub_pos_of_lt maxTopics_gt_one))

/-- The first of the jobs, on a topic without messages. -/
theorem writeProduceEach_first {q : Queue} {job : ProduceJob} {tsMs : Nat}
    (hcheck : q.checkProduce [job.item tsMs] = .ok ())
    (h : q.topics.get? job.p.topic = some {}) (rest : List ProduceJob) :
    (writeProduceEach q tsMs (job :: rest)).2.head? = some (job.reply, .produced 0) := by
  have hoffset : (q.produceOne (job.item tsMs)).2 = 0 := by
    rw [Queue.produceOne, Queue.topicOrDefault, show q.topics.get? (job.item tsMs).topic = _ from h]
    by_cases hid : (job.item tsMs).producerId = "" <;> simp [produceTopic, hid]
  simp only [writeProduceEach, List.map_cons, Queue.produceEach_cons hcheck, List.zip_cons_cons,
    List.head?_cons, hoffset, appResponseToProto]

theorem crowdedBatch_admitted :
    ∀ job ∈ crowdedBatch, checkFrame (({} : Queue).run oneBelowLimit) job.p = .ok () := by
  intro job hjob
  have hadmits : (({} : Queue).run oneBelowLimit).topicAdmits job.p.topic = true := by
    rw [Queue.topicAdmits, oneBelowLimit_topics.1]
    simp [maxTopics]
  refine checkFrame_ok_iff.mpr ⟨?_, ?_, ?_, hadmits⟩
  · simp only [crowdedBatch, List.mem_cons, List.not_mem_nil, or_false] at hjob
    rcases hjob with rfl | rfl | rfl <;> exact Nat.le_of_ble_eq_true rfl
  · simp only [crowdedBatch, List.mem_cons, List.not_mem_nil, or_false] at hjob
    rcases hjob with rfl | rfl | rfl <;> decide
  · simp only [crowdedBatch, List.mem_cons, List.not_mem_nil, or_false] at hjob
    rcases hjob with rfl | rfl | rfl <;> exact shortName_size _

theorem crowdedBatch_over_limit :
    (({} : Queue).run oneBelowLimit).checkProduce (crowdedBatch.map (·.item 5)) =
      .error s!"topic limit of {maxTopics} reached" := by
  obtain ⟨hsize, hget⟩ := oneBelowLimit_topics
  refine Queue.checkProduce_over_limit (fun item hitem => ?_) ?_
  · obtain ⟨job, hjob, rfl⟩ := List.mem_map.mp hitem
    exact (checkFrame_ok (crowdedBatch_admitted job hjob) 5).1
  · have hold : (({} : Queue).run oneBelowLimit).topics.contains (shortName 0) = true :=
      OrdMap.contains_iff.mpr ⟨{}, oneBelowLimit_first⟩
    have hnew : ∀ i, maxTopics ≤ i → i < maxTopics + 2 →
        (({} : Queue).run oneBelowLimit).topics.contains (shortName i) = false := fun i hlo hhi =>
      OrdMap.contains_eq_false.mpr ((hget i hhi).trans (if_neg (by omega)))
    have hne : shortName maxTopics ≠ shortName (maxTopics + 1) := fun h =>
      absurd (shortName_inj (by decide) (by decide) h) (Nat.ne_of_lt (Nat.lt_succ_self _))
    have hfresh : (({} : Queue).run oneBelowLimit).freshTopics (crowdedBatch.map (·.item 5)) =
        {shortName maxTopics, shortName (maxTopics + 1)} := by
      simp only [crowdedBatch, List.map_cons, List.map_nil, ProduceJob.item,
        Queue.freshTopics_cons, Queue.freshTopics_nil, hold, hnew maxTopics le_rfl (by omega),
        hnew (maxTopics + 1) (by omega) (by omega), if_true, Bool.false_eq_true, if_false]
      rfl
    rw [hsize, hfresh, Finset.card_pair hne]
    have := maxTopics_gt_one
    omega

/-- The jobs are each admitted and make one batch. All three are answered
with an error, also the one for the existing topic, which is the first
and would have been produced on its own. -/
theorem crowded_batch_fails :
    ∃ (debug : AppResponse → String) (reqs : List AppRequest) (jobs : List ProduceJob)
      (message : String),
      (∀ job ∈ jobs, checkFrame (({} : Queue).run reqs) job.p = .ok ()) ∧
      takeBatch jobs = (jobs, []) ∧
      (∃ job, jobs.head? = some job ∧
        (({} : Queue).run reqs).topics.contains job.p.topic = true) ∧
      (writeProduceBatch debug (({} : Queue).run reqs) 5 jobs).2 =
        jobs.map (fun job => (job.reply, respError "internal" message)) ∧
      (writeProduceEach (({} : Queue).run reqs) 5 jobs).2.head? = some (0, .produced 0) := by
  refine ⟨fun _ => "Rejected", oneBelowLimit, crowdedBatch,
    "unexpected batch response: Rejected", crowdedBatch_admitted, rfl,
    ⟨_, rfl, OrdMap.contains_iff.mpr ⟨{}, oneBelowLimit_first⟩⟩, ?_, ?_⟩
  · exact congrArg Prod.snd (writeProduceBatch_error (fun _ => "Rejected") crowdedBatch_over_limit)
  · exact writeProduceEach_first (checkProduce_of_admitted
      (Queue.run_size_le (Nat.zero_le _) oneBelowLimit)
      (crowdedBatch_admitted _ List.mem_cons_self) 5) oneBelowLimit_first _

end HermesMq
