import HermesMq.ClientPort
import HermesMq.GroupLimit
import HermesMq.SelectionReference
import HermesMq.TopicLog

/-!
# Polls and the client frame

`handle_poll`: a loop that writes a poll request whenever the gate says
that something is deliverable, until a poll hands something out or the time
is up. What it hands out is what the reference selects from the state the
request is applied to (`Queue.backlog`).

The number of messages and the size of one are bounded, the size of a
response is not: it fits the client frame if and only if the selected
messages do (`poll_response_fits`).
-/

namespace HermesMq

open Wire

/-! ## The loop of `handle_poll` -/

def respNotLeader (addr : String) : Response :=
  .error "not_leader" "not the leader; retry against leader_addr" addr 0

def respRateLimited (retryAfterMs : Nat) : Response :=
  .error "rate_limited" "rate limit exceeded" "" retryAfterMs

/-- How a `client_write` can fail. -/
inductive WriteError where
  | forwardToLeader (addr : String)
  | other (text : String)

def mapRaftError : WriteError → Response
  | .forwardToLeader addr => respNotLeader addr
  | .other text => respError "internal" text

/-- `RateLimiter::take` on a bucket with `tokens` whole tokens; `retryMs` is
when there will be one. -/
def takeTokens (tokens retryMs want : Nat) : Except Nat Nat :=
  if want = 0 then .ok 0
  else if min tokens want = 0 then .error retryMs
  else .ok (min tokens want)

/-- What a pass of the loop meets: the state the gate reads and the one the
rate is read from, the bucket of the topic, what becomes of the write, with
the state the request is applied to, and if the deadline has passed. -/
structure PollRound where
  gate : Queue
  nowMs : Nat
  rates : Queue
  tokens : Nat
  retryMs : Nat
  tsMs : Nat
  write : Except WriteError Queue
  timeUp : Bool

namespace PollRound

def grant (r : PollRound) (p : PollFrame) : Except Nat Nat :=
  match r.rates.rateConfig p.topic with
  | some _ => takeTokens r.tokens r.retryMs p.pollMax
  | none => .ok p.pollMax

/-- The poll of a pass; `none` if there is none or it is empty. -/
def poll (r : PollRound) (p : PollFrame) : Option Response :=
  if r.gate.hasDeliverable p.topic p.group r.nowMs then
    match r.grant p, r.write with
    | .error retryMs, _ => some (respRateLimited retryMs)
    | .ok _, .error e => some (mapRaftError e)
    | .ok grant, .ok q =>
        match (q.apply (p.request grant r.tsMs)).2 with
        | .polled [] => none
        | .polled items => some (.polled items)
        | other => some (appResponseToProto other)
  else none

/-- One pass; `none` if the loop goes on. -/
def answer (r : PollRound) (p : PollFrame) : Option Response :=
  match r.poll p with
  | some resp => some resp
  | none => if p.waitMs = 0 ∨ r.timeUp then some (.polled []) else none

end PollRound

/-- The loop over the passes it makes: all but the last go on. -/
def pollLoop (p : PollFrame) : List PollRound → Option Response
  | [] => none
  | [r] => r.answer p
  | r :: next :: rest =>
      match r.answer p with
      | some _ => none
      | none => pollLoop p (next :: rest)

/-- `notLeader` is the address to turn to, on a node that does not lead. -/
def handlePoll (notLeader : Option String) (p : PollFrame) (rounds : List PollRound) :
    Option Response :=
  match notLeader, checkNames p.topic p.group with
  | some addr, _ => some (respNotLeader addr)
  | none, .error resp => some resp
  | none, .ok () => pollLoop p rounds

/-! ## What a poll hands out -/

/-- What the reference selects for the group, numbered from the lease
counter on. -/
def Queue.backlog (q : Queue) (topic : TopicId) (group : GroupId) (max tsMs : Nat) :
    List Delivered :=
  match q.topics.get? topic with
  | none => []
  | some t =>
      let t := sweepAndReclaim t tsMs
      match groupEntry t group (some tsMs) with
      | none => []
      | some g =>
          let c := candidates t.messages (g.beginPoll tsMs)
          (referenceSelection c max g.pollCount).zipIdx.filterMap fun x =>
            (t.messages.get? x.1).map (deliveredItem (min (q.nextLeaseId + x.2) u64Max) x.1)

theorem leaseChosen_numbered (messages : OrdMap Offset Message) (d : Nat) (n : LeaseId)
    (l : List Ranked) (g : GroupState) (k : Nat) :
    (leaseChosen messages d l g (min (n + k) u64Max)).2.2 =
      ((offsets l).zipIdx k).filterMap fun x =>
        (messages.get? x.1).map (deliveredItem (min (n + x.2) u64Max) x.1) := by
  induction l generalizing g k with
  | nil => rfl
  | cons x rest ih =>
      have hnext := ih (g.takeLease (min (n + k) u64Max) x.2 d) (k + 1)
      rw [leaseChosen, satAdd_min, Nat.add_assoc n k 1]
      simp only [offsets, List.map_cons, List.zipIdx_cons] at hnext ⊢
      cases hm : messages.get? x.2 with
      | none => rw [List.filterMap_cons_none (by rw [hm]; rfl), hnext]; rfl
      | some m => rw [List.filterMap_cons_some (by rw [hm]; rfl), hnext]; rfl

theorem Queue.poll_eq_backlog {q : Queue} (hn : q.nextLeaseId ≤ u64Max) (topic : TopicId)
    (group : GroupId) (max vis tsMs : Nat) :
    (q.poll topic group max vis tsMs).2 = q.backlog topic group max tsMs := by
  rw [Queue.backlog]
  cases ht : q.topics.get? topic with
  | none => simp only [Queue.poll, ht]
  | some t =>
      simp only [Queue.poll, ht, pollTopic]
      cases hg : groupEntry (sweepAndReclaim t tsMs) group (some tsMs) with
      | none => rfl
      | some g =>
          have hnumbered := leaseChosen_numbered (sweepAndReclaim t tsMs).messages
            (satAdd tsMs (min vis maxVisibilityMs)) q.nextLeaseId
            (choose (sweepAndReclaim t tsMs).messages (g.beginPoll tsMs) max g.pollCount)
            (g.beginPoll tsMs) 0
          rw [Nat.add_zero, Nat.min_eq_left hn, ← pollGroup_eq, offsets_choose] at hnumbered
          exact hnumbered

namespace PollRound

/-- What the reference selects in a pass that writes its poll. -/
def backlog (r : PollRound) (p : PollFrame) : List Delivered :=
  if r.gate.hasDeliverable p.topic p.group r.nowMs then
    match r.grant p, r.write with
    | .ok grant, .ok q => q.backlog p.topic p.group grant r.tsMs
    | _, _ => []
  else []

end PollRound

theorem apply_pollRequest {q : Queue} {p : PollFrame} (hn : q.nextLeaseId ≤ u64Max)
    (hnames : checkNames p.topic p.group = .ok ()) (grant tsMs : Nat) :
    (q.apply (p.request grant tsMs)).2 = .polled (q.backlog p.topic p.group grant tsMs) := by
  have hconsumer : checkConsumer p.topic p.group = .ok () :=
    checkConsumer_ok_iff.mpr (checkNames_ok_iff.mp hnames)
  rw [← Queue.poll_eq_backlog hn p.topic p.group grant (visibilityMs p.visibilityTimeoutMs) tsMs,
    PollFrame.request, pollRequest]
  split
  · simp only [Queue.apply, hconsumer]
  · simp only [Queue.apply, hconsumer]

namespace PollRound

variable {r : PollRound} {p : PollFrame} (hn : ∀ q, r.write = .ok q → q.nextLeaseId ≤ u64Max)
  (hnames : checkNames p.topic p.group = .ok ())
include hn hnames

theorem poll_cases : (r.poll p = none ∧ r.backlog p = []) ∨
    r.poll p = some (.polled (r.backlog p)) ∨
    ∃ code message addr retryMs, r.poll p = some (.error code message addr retryMs) := by
  rw [poll, backlog]
  split
  · cases hgrant : r.grant p with
    | error retryMs => exact Or.inr (Or.inr ⟨_, _, _, _, rfl⟩)
    | ok grant =>
        cases hwrite : r.write with
        | error e =>
            cases e with
            | forwardToLeader | other => exact Or.inr (Or.inr ⟨_, _, _, _, rfl⟩)
        | ok q =>
            simp only [apply_pollRequest (hn q hwrite) hnames]
            cases q.backlog p.topic p.group grant r.tsMs with
            | nil => exact Or.inl ⟨rfl, rfl⟩
            | cons d rest => exact Or.inr (Or.inl rfl)
  · exact Or.inl ⟨rfl, rfl⟩

/-- A pass that answers with messages answers with all it selects, and one
that goes on selects nothing. -/
theorem answer_cases : (r.answer p = none ∧ r.backlog p = []) ∨
    r.answer p = some (.polled (r.backlog p)) ∨
    ∃ code message addr retryMs, r.answer p = some (.error code message addr retryMs) := by
  rcases poll_cases hn hnames with ⟨hpoll, hbacklog⟩ | hpoll | ⟨code, message, addr, ms, hpoll⟩
  · rw [answer, hpoll, hbacklog]
    split_ifs
    · exact Or.inr (Or.inl rfl)
    · exact Or.inl ⟨rfl, rfl⟩
  · exact Or.inr (Or.inl (by rw [answer, hpoll]))
  · exact Or.inr (Or.inr ⟨code, message, addr, ms, by rw [answer, hpoll]⟩)

end PollRound

/-- The passes of a loop that answers with messages: the last one selects
them, and those before it select nothing. -/
theorem pollLoop_backlog {p : PollFrame} (hnames : checkNames p.topic p.group = .ok ())
    {rounds : List PollRound}
    (hn : ∀ r ∈ rounds, ∀ q, r.write = .ok q → q.nextLeaseId ≤ u64Max) {items : List Delivered}
    (h : pollLoop p rounds = some (.polled items)) :
    ∃ last, last ∈ rounds ∧ last.backlog p = items ∧
      ∀ r ∈ rounds, r.backlog p = [] ∨ r.backlog p = items := by
  induction rounds with
  | nil => cases h
  | cons r rest ih =>
      obtain ⟨hr, hrest⟩ := List.forall_mem_cons.mp hn
      cases rest with
      | nil =>
          rw [pollLoop] at h
          have hitems : r.backlog p = items := by
            rcases r.answer_cases hr hnames with ⟨hnone, -⟩ | hsome | ⟨_, _, _, _, herror⟩
            · rw [hnone] at h
              cases h
            · rw [hsome] at h
              exact Response.polled.inj (Option.some.inj h)
            · rw [herror] at h
              cases h
          exact ⟨r, List.mem_singleton_self r, hitems,
            List.forall_mem_singleton.mpr (Or.inr hitems)⟩
      | cons next rest =>
          rw [pollLoop] at h
          rcases r.answer_cases hr hnames with ⟨hnone, hnil⟩ | hsome | ⟨_, _, _, _, herror⟩
          · rw [hnone] at h
            obtain ⟨last, hlast, hitems, hall⟩ := ih hrest h
            exact ⟨last, List.mem_cons_of_mem _ hlast, hitems,
              List.forall_mem_cons.mpr ⟨Or.inl hnil, hall⟩⟩
          · rw [hsome] at h
            cases h
          · rw [herror] at h
            cases h

theorem checkNames_error {topic group : String} {resp : Response}
    (h : checkNames topic group = .error resp) : ∃ message, resp = respError "bad_request" message := by
  have hlen : ∀ {kind value : String} {max : Nat}, checkLen kind value max = .error resp →
      ∃ message, resp = respError "bad_request" message := by
    intro kind value max hcheck
    rw [checkLen] at hcheck
    split at hcheck
    · cases hcheck
      exact ⟨_, rfl⟩
    · cases hcheck
  rw [checkNames] at h
  cases htopic : checkLen "topic name" topic maxNameBytes with
  | error e =>
      rw [htopic] at h
      cases h
      exact hlen htopic
  | ok _ =>
      rw [htopic] at h
      exact hlen h

/-- Only the loop answers with messages. -/
theorem handlePoll_polled {notLeader : Option String} {p : PollFrame} {rounds : List PollRound}
    {items : List Delivered} (h : handlePoll notLeader p rounds = some (.polled items)) :
    checkNames p.topic p.group = .ok () ∧ pollLoop p rounds = some (.polled items) := by
  simp only [handlePoll] at h
  split at h
  · cases h
  · rename_i resp hcheck
    obtain ⟨message, rfl⟩ := checkNames_error hcheck
    cases h
  · rename_i hcheck
    exact ⟨hcheck, h⟩

/-! ## What the port lets into the queue -/

/-- A reachable state whose messages are within the limit on payloads. -/
def Queue.FromPort (q : Queue) : Prop :=
  ∃ reqs, (∀ req ∈ reqs, ∀ item ∈ AppRequest.items req,
    item.payload.length ≤ maxPayloadBytes ∧ item.tsMs ≤ u64Max) ∧ ({} : Queue).run reqs = q

/-- What an operation leaves in a topic was there, or it appended it. -/
theorem TopicOp.run_message {op : TopicOp} {t : TopicState} {o : Offset} {m : Message}
    (h : (op.run t).messages.get? o = some m) :
    t.messages.get? o = some m ∨ ∃ item, op = .append item ∧ m = item.message o := by
  by_cases happend : ∃ item, op = .append item
  · obtain ⟨item, rfl⟩ := happend
    rw [TopicOp.run, appendMessage_messages, OrdMap.get?_insert] at h
    split_ifs at h with ho
    · exact Or.inr ⟨item, rfl, ho ▸ (Option.some.inj h).symm⟩
    · exact Or.inl h
  · exact Or.inl ((TopicOp.run_sub (fun item heq => happend ⟨item, heq⟩) t).2 h)

theorem Steps.nextLeaseId_le {req : AppRequest} {q q' : Queue} (h : Steps req q q')
    (hq : q.nextLeaseId ≤ u64Max) : q'.nextLeaseId ≤ u64Max := by
  refine h.invariant (P := fun q => q.nextLeaseId ≤ u64Max) (fun q op _ _ hq => ?_) hq
  cases op with
  | create | delete => exact hq
  | topic τ op =>
      cases op with
      | lease => exact satAdd_le_max ..
      | _ => exact hq

/-- The messages of a queue and its counter of leases are in bounds. -/
structure Queue.InBounds (q : Queue) : Prop where
  nextLeaseId : q.nextLeaseId ≤ u64Max
  messages : q.Topics fun t => ∀ o m, t.messages.get? o = some m →
    m.payload.length ≤ maxPayloadBytes ∧ m.tsMs ≤ u64Max

theorem Queue.InBounds.apply {q : Queue} (h : q.InBounds) {req : AppRequest}
    (hitems : ∀ item ∈ req.items, item.payload.length ≤ maxPayloadBytes ∧ item.tsMs ≤ u64Max) :
    (q.apply req).1.InBounds := by
  refine ⟨(apply_steps q req).nextLeaseId_le h.nextLeaseId, ?_⟩
  refine (apply_steps q req).topicsAt_of_allowed (fun _ o m hm => by cases hm)
    (fun _ _ _ ht => ht) (fun τ t n op ht _ hallow o m hm => ?_) h.messages
  rcases TopicOp.run_message hm with hm | ⟨item, rfl, rfl⟩
  · exact ht o m hm
  · exact hitems item hallow.1

theorem Queue.InBounds.run {q : Queue} (h : q.InBounds) {reqs : List AppRequest}
    (hitems : ∀ req ∈ reqs, ∀ item ∈ AppRequest.items req,
      item.payload.length ≤ maxPayloadBytes ∧ item.tsMs ≤ u64Max) : (q.run reqs).InBounds := by
  induction reqs generalizing q with
  | nil => exact h
  | cons req rest ih =>
      obtain ⟨hreq, hrest⟩ := List.forall_mem_cons.mp hitems
      exact ih (h.apply hreq) hrest

theorem Queue.FromPort.inBounds {q : Queue} (h : q.FromPort) : q.InBounds := by
  obtain ⟨reqs, hitems, rfl⟩ := h
  have hstart : ({} : Queue).InBounds := ⟨Nat.zero_le _, fun τ t ht => by cases ht⟩
  exact hstart.run hitems

/-! ## The length of a response -/

/-- The bytes a message adds to a response. -/
def Delivered.wireSize (d : Delivered) : Nat := (messageField 1 d.encode).length

structure Delivered.InBounds (d : Delivered) : Prop where
  leaseId : d.leaseId ≤ u64Max
  offset : d.offset ≤ u64Max
  payload : d.payload.length ≤ maxPayloadBytes
  tsMs : d.tsMs ≤ u64Max

theorem Delivered.payload_le_wireSize (d : Delivered) : d.payload.length ≤ d.wireSize := by
  have hfield : d.payload.length ≤ (bytesField 5 d.payload).length := by
    by_cases hnil : d.payload = []
    · rw [hnil]
      exact Nat.zero_le _
    · rw [length_bytesField (by decide) hnil, length_delimited]
      omega
  rw [wireSize, length_messageField (by decide), length_delimited, encode]
  simp only [List.length_append]
  omega

theorem Delivered.InBounds.wireSize_le {d : Delivered} (h : d.InBounds) :
    d.wireSize ≤ d.payload.length + 63 := by
  have hpayload : d.payload.length ≤ 1048576 := h.payload
  have hvarint : (varint d.payload.length).length ≤ 2 + 1 := length_varint_le (by omega)
  have hencode : d.encode.length ≤ d.payload.length + 59 := by
    have hct : ctToU32 d.contentType ≤ u64Max := by
      cases d.contentType with
      | raw | text | json | msgPack => decide
    have hpriority : d.priority.val ≤ u64Max := d.priority.isLt.le.trans (by decide)
    -- eleven bytes for each number
    have hleaseId := length_uintField_u64 (by decide : 1 < 16) h.leaseId
    have hoffset := length_uintField_u64 (by decide : 2 < 16) h.offset
    have hpriority := length_uintField_u64 (by decide : 3 < 16) hpriority
    have hct := length_uintField_u64 (by decide : 4 < 16) hct
    have hbytes := length_bytesField_le (by decide : 5 < 15) d.payload
    have htsMs := length_uintField_u64 (by decide : 6 < 16) h.tsMs
    rw [length_delimited] at hbytes
    simp only [encode, List.length_append]
    omega
  have houter : (varint d.encode.length).length ≤ 2 + 1 := length_varint_le (by omega)
  rw [wireSize, length_messageField (by decide), length_delimited]
  omega

theorem length_polled (items : List Delivered) : (Response.polled items).encode.length =
    1 + (varint (items.map Delivered.wireSize).sum).length +
      (items.map Delivered.wireSize).sum := by
  rw [Response.encode, length_messageField (by decide), length_delimited, List.length_flatMap,
    Nat.add_assoc]
  rfl

/-- A response has four bytes of its frame next to the messages. -/
theorem polled_fits_iff {items : List Delivered} :
    (Response.polled items).encode.length ≤ maxClientFrame ↔
      (items.map Delivered.wireSize).sum + 4 ≤ maxClientFrame := by
  have hmax : maxClientFrame = 128 ^ (2 + 1) := by decide
  have hlimit := length_varint_add_le_iff (n := (items.map Delivered.wireSize).sum)
    (by decide : 128 ^ 2 + 2 + 1 ≤ 128 ^ (2 + 1))
  rw [length_polled, hmax]
  omega

theorem Queue.length_backlog_le (q : Queue) (topic : TopicId) (group : GroupId) (max tsMs : Nat) :
    (q.backlog topic group max tsMs).length ≤ max := by
  rw [backlog]
  split
  · exact Nat.zero_le _
  · dsimp only
    split
    · exact Nat.zero_le _
    · refine (List.length_filterMap_le ..).trans ?_
      rw [List.length_zipIdx, ← offsets_choose, offsets, List.length_map, length_choose]
      exact Nat.min_le_left ..

theorem Queue.FromPort.backlog_inBounds {q : Queue} (h : q.FromPort) {topic : TopicId}
    {group : GroupId} {max tsMs : Nat} {d : Delivered}
    (hd : d ∈ q.backlog topic group max tsMs) : d.InBounds := by
  have hmessages := h.inBounds.messages
  obtain ⟨reqs, -, rfl⟩ := h
  rw [backlog] at hd
  split at hd
  · cases hd
  · rename_i t ht
    dsimp only at hd
    split at hd
    · cases hd
    · obtain ⟨x, -, hx⟩ := List.mem_filterMap.mp hd
      obtain ⟨m, hm, rfl⟩ := Option.map_eq_some_iff.mp hx
      obtain ⟨b, hcut, -⟩ := sweepAndReclaim_cut t tsMs
      have hm : t.messages.get? x.1 = some m := (hcut.sub hm).1
      have hshape := run_shape reqs topic t ht
      obtain ⟨hpayload, hts⟩ := hmessages topic t ht x.1 m hm
      exact ⟨Nat.min_le_right .., (hshape.keys_le hm).trans hshape.nextOffset_le, hpayload, hts⟩

theorem PollRound.grant_le {r : PollRound} {p : PollFrame} {grant : Nat}
    (h : r.grant p = .ok grant) : grant ≤ p.pollMax := by
  simp only [PollRound.grant, takeTokens] at h
  split at h
  · split_ifs at h
    · cases h
      exact Nat.zero_le _
    · cases h
      exact Nat.min_le_right ..
  · cases h
    exact Nat.le_refl _

/-- A pass selects at most as many messages as a poll may ask for, all in
bounds, so a response is always shorter than its header can say. -/
theorem PollRound.length_response_lt {r : PollRound} (hr : ∀ q, r.write = .ok q → q.FromPort)
    (p : PollFrame) : (Response.polled (r.backlog p)).encode.length < 2 ^ 32 := by
  have hbounds : (r.backlog p).length ≤ 1024 ∧ ∀ d ∈ r.backlog p, d.InBounds := by
    rw [PollRound.backlog]
    split
    · split
      · rename_i grant q hgrant hwrite
        have hmax : p.pollMax ≤ 1024 := p.pollMax_le
        exact ⟨(q.length_backlog_le ..).trans ((grant_le hgrant).trans hmax),
          fun d hd => (hr q hwrite).backlog_inBounds hd⟩
      · exact ⟨Nat.zero_le _, fun d hd => by cases hd⟩
    · exact ⟨Nat.zero_le _, fun d hd => by cases hd⟩
  have hsize : ∀ d ∈ r.backlog p, d.wireSize ≤ 1048639 := by
    intro d hd
    have hpayload : d.payload.length ≤ 1048576 := (hbounds.2 d hd).payload
    have hsize := (hbounds.2 d hd).wireSize_le
    omega
  have hsum : ((r.backlog p).map Delivered.wireSize).sum ≤ _ := sum_map_le hsize
  have hvarint : (varint ((r.backlog p).map Delivered.wireSize).sum).length ≤ 4 + 1 :=
    length_varint_le (by omega)
  rw [length_polled]
  omega

/-- The messages the reference selects in the pass leave room for the rest
of the response. -/
def PollRound.BacklogFits (r : PollRound) (p : PollFrame) : Prop :=
  ((r.backlog p).map Delivered.wireSize).sum + 4 ≤ maxClientFrame

/-! ## Two messages -/

/-- A message without a producer id. -/
def payloadItem (payload : Bytes) : ProduceItem := ⟨"t", .default, .raw, payload, "", 0, 1⟩

/-- Two batches of one message each. -/
def twoProduces (payload : Bytes) : List AppRequest :=
  [.produceMany [payloadItem payload], .produceMany [payloadItem payload]]

/-- The topic after them. -/
def twoMessages (payload : Bytes) : TopicState where
  nextOffset := 2
  messages := .ofList
    [(0, ⟨0, .default, .raw, payload, 1⟩), (1, ⟨1, .default, .raw, payload, 1⟩)]

def pollTwo : PollFrame := ⟨"t", "g", 2, 0, "", 0⟩

/-- The pass in which nothing gets in the way of the poll. -/
def plainRound (q : Queue) : PollRound := ⟨q, 1, q, 0, 0, 1, .ok q, false⟩

/-- What a poll for two hands out. -/
def twoDelivered (payload : Bytes) : List Delivered :=
  [⟨0, 0, .default, .raw, payload, 1⟩, ⟨1, 1, .default, .raw, payload, 1⟩]

theorem run_twoProduces (payload : Bytes) :
    ({} : Queue).run (twoProduces payload) = ({} : Queue).putTopic "t" (twoMessages payload) := by
  have hfirst : ({} : Queue).checkProduce [payloadItem payload] = .ok () := rfl
  have hsecond : (({} : Queue).produceAll [payloadItem payload]).1.checkProduce
      [payloadItem payload] = .ok () := rfl
  have htopics : ((({} : Queue).produceAll [payloadItem payload]).1.produceAll
      [payloadItem payload]).1 = { ({} : Queue) with
        topics := (({} : Queue).topics.insert "t" (produceTopic {} (payloadItem payload)).1).insert
          "t" (twoMessages payload) } := rfl
  rw [twoProduces, Queue.run_cons, Queue.apply_produceMany_ok hfirst, Queue.run_cons,
    Queue.apply_produceMany_ok hsecond, Queue.run_nil, htopics, Queue.insert_insert]
  rfl

theorem backlog_twoMessages (payload : Bytes) :
    (({} : Queue).putTopic "t" (twoMessages payload)).backlog "t" "g" 2 1 =
      twoDelivered payload := by
  have ht : (({} : Queue).putTopic "t" (twoMessages payload)).topics.get? "t" =
      some (twoMessages payload) := rfl
  have hsweep : sweepAndReclaim (twoMessages payload) 1 = twoMessages payload := rfl
  have hentry : groupEntry (twoMessages payload) "g" (some 1) =
      some (freshGroup (twoMessages payload) (some 1)) := rfl
  have hcandidates : candidates (twoMessages payload).messages
      ((freshGroup (twoMessages payload) (some 1)).beginPoll 1) =
        [(.default, 0), (.default, 1)] := rfl
  have hcount : (freshGroup (twoMessages payload) (some 1)).pollCount = 0 := rfl
  have hselect : referenceSelection [(.default, 0), (.default, 1)] 2 0 = [0, 1] := by decide
  simp only [Queue.backlog, ht, hsweep, hentry, hcandidates, hcount, hselect]
  rfl

theorem handlePoll_two (payload : Bytes) :
    handlePoll none pollTwo [plainRound (({} : Queue).run (twoProduces payload))] =
      some (.polled (twoDelivered payload)) := by
  rw [run_twoProduces]
  generalize hq : ({} : Queue).putTopic "t" (twoMessages payload) = q
  have hgate : (plainRound q).gate.hasDeliverable pollTwo.topic pollTwo.group
      (plainRound q).nowMs = true := by
    rw [← hq]
    rfl
  have hgrant : (plainRound q).grant pollTwo = .ok 2 := by
    rw [← hq]
    rfl
  have hwrite : (plainRound q).write = .ok q := rfl
  have hn : q.nextLeaseId ≤ u64Max := by
    rw [← hq]
    exact Nat.zero_le _
  have happly : (q.apply (pollTwo.request 2 (plainRound q).tsMs)).2 =
      .polled (twoDelivered payload) := by
    rw [apply_pollRequest hn rfl, ← backlog_twoMessages, hq]
    rfl
  have hpoll : (plainRound q).poll pollTwo = some (.polled (twoDelivered payload)) := by
    simp only [PollRound.poll, hgate, if_true, hgrant, hwrite, happly]
    rfl
  have hanswer : (plainRound q).answer pollTwo = some (.polled (twoDelivered payload)) := by
    rw [PollRound.answer, hpoll]
  exact hanswer

theorem fromPort_two {payload : Bytes} (h : payload.length ≤ maxPayloadBytes) :
    (({} : Queue).run (twoProduces payload)).FromPort := by
  refine ⟨twoProduces payload, ?_, rfl⟩
  intro req hreq item hitem
  have hreq : req = .produceMany [payloadItem payload] := by
    simpa only [twoProduces, List.mem_cons, List.not_mem_nil, or_false, or_self] using hreq
  rw [hreq] at hitem
  rw [List.mem_singleton.mp hitem]
  exact ⟨h, (by decide : 1 ≤ u64Max)⟩

theorem writes_fromPort_two {payload : Bytes} (h : payload.length ≤ maxPayloadBytes) :
    ∀ q, (plainRound (({} : Queue).run (twoProduces payload))).write = .ok q → q.FromPort := by
  intro q hq
  exact Except.ok.inj hq ▸ fromPort_two h

theorem backlog_two {payload : Bytes} (h : payload.length ≤ maxPayloadBytes) :
    (plainRound (({} : Queue).run (twoProduces payload))).backlog pollTwo =
      twoDelivered payload := by
  have hn := fun q hq => (writes_fromPort_two h q hq).inBounds.nextLeaseId
  obtain ⟨last, hlast, hitems, -⟩ := pollLoop_backlog rfl (List.forall_mem_singleton.mpr hn)
    (handlePoll_polled (handlePoll_two payload)).2
  rw [← hitems, List.mem_singleton.mp hlast]

theorem fits_produce {payload : Bytes} (h : payload.length ≤ maxPayloadBytes) :
    (RequestKind.produce ⟨"t", 0, 0, payload, "", 0⟩).Fits := by
  have hmax : payload.length ≤ 1048576 := h
  have hframe : maxClientFrame = 2097152 := rfl
  have hvarint : (varint payload.length).length ≤ 2 + 1 := length_varint_le (by omega)
  have htopic := length_bytesField_le (by decide : 1 < 15) (utf8Bytes "t")
  have hpayload := length_bytesField_le (by decide : 4 < 15) payload
  have hone : (utf8Bytes "t").length = 1 := rfl
  have hbody : (ProduceFrame.encode ⟨"t", 0, 0, payload, "", 0⟩).length ≤ payload.length + 7 := by
    have hzero : ∀ field, uintField field 0 = [] := fun _ => rfl
    have hempty : bytesField 5 (utf8Bytes "") = [] := rfl
    rw [length_delimited, hone, length_varint_of_lt (by decide)] at htopic
    rw [length_delimited] at hpayload
    simp only [ProduceFrame.encode, textField, hzero, hempty, List.append_nil, List.length_append]
    omega
  have houter : (varint (ProduceFrame.encode ⟨"t", 0, 0, payload, "", 0⟩).length).length ≤ 2 + 1 :=
    length_varint_le (by omega)
  rw [RequestKind.Fits, RequestKind.encode, length_messageField (by decide), length_delimited]
  omega

/-- Both batches come through the client port. -/
theorem admitted_twoProduces {payload : Bytes} (h : payload.length ≤ maxPayloadBytes) :
    ∀ req ∈ twoProduces payload, Admitted id req := by
  have hnames : "".utf8ByteSize ≤ maxProducerIdBytes ∧ "t".utf8ByteSize ≤ maxNameBytes := by decide
  have hcheck : checkFrame {} ⟨"t", 0, 0, payload, "", 0⟩ = .ok () :=
    checkFrame_ok_iff.mpr ⟨h, hnames.1, hnames.2, rfl⟩
  have hjob : ∀ job ∈ [(⟨⟨"t", 0, 0, payload, "", 0⟩, 0⟩ : ProduceJob)], job.Checked :=
    List.forall_mem_singleton.mpr ⟨fits_produce h, Nat.zero_le _, {}, hcheck⟩
  have hreq : Admitted id (.produceMany [payloadItem payload]) :=
    Admitted.produced hjob (by decide : 1 ≤ u64Max)
  exact List.forall_mem_cons.mpr ⟨hreq, List.forall_mem_singleton.mpr hreq⟩

/-- The messages `handle_poll` answers with fit the client frame, and the
client takes them, if and only if in every pass the messages selected for
the group do. -/
theorem poll_response_fits {notLeader : Option String} {p : PollFrame} {rounds : List PollRound}
    (hreach : ∀ r ∈ rounds, ∀ q, r.write = .ok q → q.FromPort) {items : List Delivered}
    (h : handlePoll notLeader p rounds = some (.polled items)) :
    ((Response.polled items).encode.length ≤ maxClientFrame ↔
      ∀ r ∈ rounds, r.BacklogFits p) ∧
    (readFrame maxClientFrame (writeFrame (Response.polled items).encode) =
      .done (Response.polled items).encode ↔ ∀ r ∈ rounds, r.BacklogFits p) := by
  obtain ⟨hnames, hloop⟩ := handlePoll_polled h
  have hn : ∀ r ∈ rounds, ∀ q, r.write = .ok q → q.nextLeaseId ≤ u64Max :=
    fun r hr q hq => (hreach r hr q hq).inBounds.nextLeaseId
  obtain ⟨last, hlast, rfl, hall⟩ := pollLoop_backlog hnames hn hloop
  have hfits : (Response.polled (last.backlog p)).encode.length ≤ maxClientFrame ↔
      ∀ r ∈ rounds, r.BacklogFits p := by
    rw [polled_fits_iff]
    constructor
    · intro hle r hr
      rcases hall r hr with hnil | heq
      · rw [PollRound.BacklogFits, hnil]
        decide
      · rw [PollRound.BacklogFits, heq]
        exact hle
    · intro hrounds
      exact hrounds last hlast
  refine ⟨hfits, ?_⟩
  rw [readFrame_writeFrame (last.length_response_lt (hreach last hlast) p), hfits]

/-- Two messages of 66 bytes less than one MiB fit the frame. -/
theorem poll_response_fits_two :
    let payload : Bytes := List.replicate (maxPayloadBytes - 66) 0
    handlePoll none pollTwo [plainRound (({} : Queue).run (twoProduces payload))] =
        some (.polled (twoDelivered payload)) ∧
      (Response.polled (twoDelivered payload)).encode.length ≤ maxClientFrame := by
  intro payload
  have hlength : payload.length = 1048510 := List.length_replicate
  have hpayload : payload.length ≤ maxPayloadBytes := hlength.trans_le (by decide)
  have hwrites := writes_fromPort_two hpayload
  have hfits : (plainRound (({} : Queue).run (twoProduces payload))).BacklogFits pollTwo := by
    have hfirst : Delivered.wireSize ⟨0, 0, .default, .raw, payload, 1⟩ ≤ payload.length + 63 :=
      Delivered.InBounds.wireSize_le ⟨by decide, by decide, hpayload, by decide⟩
    have hsecond : Delivered.wireSize ⟨1, 1, .default, .raw, payload, 1⟩ ≤ payload.length + 63 :=
      Delivered.InBounds.wireSize_le ⟨by decide, by decide, hpayload, by decide⟩
    have hmax : maxClientFrame = 2097152 := rfl
    rw [PollRound.BacklogFits, backlog_two hpayload, twoDelivered, List.map_cons,
      List.map_singleton, List.sum_cons, List.sum_singleton]
    omega
  exact ⟨handlePoll_two payload, (poll_response_fits (List.forall_mem_singleton.mpr hwrites)
    (handlePoll_two payload)).1.mpr (List.forall_mem_singleton.mpr hfits)⟩

/-- Two messages of one MiB, which is the limit, do not fit the frame. -/
theorem two_messages_too_long :
    (∀ req ∈ twoProduces (List.replicate maxPayloadBytes 0), Admitted id req) ∧
      handlePoll none pollTwo
          [plainRound (({} : Queue).run (twoProduces (List.replicate maxPayloadBytes 0)))] =
        some (.polled (twoDelivered (List.replicate maxPayloadBytes 0))) ∧
      ¬(Response.polled (twoDelivered (List.replicate maxPayloadBytes 0))).encode.length ≤
        maxClientFrame ∧
      readFrame maxClientFrame
          (writeFrame (Response.polled (twoDelivered (List.replicate maxPayloadBytes 0))).encode) ≠
        .done (Response.polled (twoDelivered (List.replicate maxPayloadBytes 0))).encode := by
  have hlen : (List.replicate maxPayloadBytes 0 : Bytes).length = maxPayloadBytes :=
    List.length_replicate
  -- only the length of the payload matters
  generalize (List.replicate maxPayloadBytes 0 : Bytes) = payload at hlen ⊢
  have hlong : ¬(Response.polled (twoDelivered payload)).encode.length ≤ maxClientFrame := by
    have hfirst := Delivered.payload_le_wireSize ⟨0, 0, .default, .raw, payload, 1⟩
    have hsecond := Delivered.payload_le_wireSize ⟨1, 1, .default, .raw, payload, 1⟩
    have hmax : maxClientFrame = 2 * maxPayloadBytes := rfl
    rw [polled_fits_iff, twoDelivered, List.map_cons, List.map_singleton, List.sum_cons,
      List.sum_singleton]
    dsimp only at hfirst hsecond
    omega
  refine ⟨admitted_twoProduces hlen.le, handlePoll_two payload, hlong, ?_⟩
  intro hdone
  have hlt := PollRound.length_response_lt (writes_fromPort_two hlen.le) pollTwo
  rw [backlog_two hlen.le] at hlt
  exact hlong ((readFrame_writeFrame hlt).mp hdone)

end HermesMq
