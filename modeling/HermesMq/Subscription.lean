import HermesMq.LeaseIds
import HermesMq.PushSession

/-!
# Manual-ack subscriptions

A subscription next to the queue it consumes from. Everything other clients
do, and the batches in which sent acks reach the queue, are requests applied
between its steps.

Besides the session's own state the model records what its polls delivered.
A message is identified by its offset and by the life of the topic it
belongs to: offsets start over when a topic is deleted and created again,
and the tracking knows offsets only. As long as no deletion meets a session
that still remembers offsets, a lease is acked only for a client that acked
its message (`session_acks_only_acked`).
-/

namespace HermesMq

/-! ## The session -/

structure SubConfig where
  topic : TopicId
  group : GroupId
  prefetch : Nat
  visibility : Nat

/-- A message: the life of its topic, counted in deletions, and its
offset. -/
abbrev MessageId := Nat × Offset

structure Session where
  queue : Queue
  push : PushSession := {}
  -- what happened so far, which the code does not record
  incarnation : Nat := 0
  delivered : List (LeaseId × MessageId) := []

inductive SessionEvent where
  /-- A request by anyone else, or a batch of acks or nacks that arrives. -/
  | other (req : AppRequest)
  /-- The top of the loop: count, look at the gate, ask the rate limiter,
  which allows `limit`. The clock is read twice. -/
  | count (nowMs gateMs : Nat) (limit : Option Nat)
  /-- The poll is applied and answered. -/
  | poll (tsMs : Nat)
  /-- Anything else that the loop and its reader do. -/
  | own (e : PushEvent)

/-- The event is for the queue too, and not one of `own`. -/
def PushEvent.polls : PushEvent → Bool
  | .count .. | .answer _ => true
  | _ => false

namespace Session

/-- What the loop asks for: what the prefetch window has room for, if there
is anything to take and the rate limiter allows it. -/
def asks (cfg : SubConfig) (s : Session) (nowMs gateMs : Nat) (limit : Option Nat) : Option Nat :=
  let cur := (s.push.tracking.liveCount nowMs cfg.visibility).2
  if cur < cfg.prefetch && s.queue.hasDeliverable cfg.topic cfg.group gateMs then
    limit.map fun limit => min limit (cfg.prefetch - cur)
  else none

/-- The poll of the session and what it delivers. -/
def poll (cfg : SubConfig) (s : Session) (max tsMs : Nat) : Session :=
  let (queue, response) := s.queue.apply (.poll cfg.topic cfg.group max cfg.visibility tsMs)
  { s with queue := queue
           push := s.push.answer response.delivered
           delivered := s.delivered ++
             response.delivered.map fun d => (d.leaseId, s.incarnation, d.offset) }

/-- A request applied to the queue. Deleting the topic ends its life. -/
def other (cfg : SubConfig) (s : Session) (req : AppRequest) : Session :=
  { s with queue := (s.queue.apply req).1
           incarnation :=
             if req = .deleteTopic cfg.topic ∧ s.queue.topics.contains cfg.topic = true then
               s.incarnation + 1
             else s.incarnation }

def own (cfg : SubConfig) (s : Session) (e : PushEvent) : Option Session :=
  (s.push.step cfg.visibility e).map fun push => { s with push := push }

/-- One step; `none` when the event cannot happen in this state. -/
def step (cfg : SubConfig) (s : Session) : SessionEvent → Option Session
  | .other req => some (s.other cfg req)
  | .count nowMs gateMs limit => s.own cfg (.count nowMs (s.asks cfg nowMs gateMs limit))
  | .poll tsMs => s.push.asked.map fun max => s.poll cfg max tsMs
  | .own e => if e.polls then none else s.own cfg e

def run (cfg : SubConfig) (s : Session) (events : List SessionEvent) : Option Session :=
  Machine.run (step cfg) s events

/-- The client has acked the message under a lease that was written to it. -/
def AckedByClient (s : Session) (m : MessageId) : Prop :=
  ∃ l ∈ s.push.clientAcks, l ∈ s.push.pushed ∧ (l, m) ∈ s.delivered

/-- The lease is on a message the client has acked. -/
def OnAcked (s : Session) (l : LeaseId) : Prop :=
  ∃ m, (l, m) ∈ s.delivered ∧ s.AckedByClient m

/-- Every lease sent as an ack is on a message the client has acked. -/
def AcksOnlyAcked (s : Session) : Prop := ∀ l, (l, false) ∈ s.push.sent → s.OnAcked l

end Session

/-- The steps of a session: the queue moves, or the loop and its reader, or
both by a poll. -/
inductive SessionStep (cfg : SubConfig) (s : Session) : SessionEvent → Session → Prop
  | other (req : AppRequest) : SessionStep cfg s (.other req) (s.other cfg req)
  | count {nowMs gateMs : Nat} {limit : Option Nat} {push : PushSession}
      (hstep : PushStep cfg.visibility s.push
        (.count nowMs (s.asks cfg nowMs gateMs limit)) push) :
      SessionStep cfg s (.count nowMs gateMs limit) { s with push := push }
  | poll {tsMs max : Nat} (hasked : s.push.asked = some max) :
      SessionStep cfg s (.poll tsMs) (s.poll cfg max tsMs)
  | own {e : PushEvent} {push : PushSession} (he : e.polls = false)
      (hstep : PushStep cfg.visibility s.push e push) :
      SessionStep cfg s (.own e) { s with push := push }

theorem Session.step_cases {cfg : SubConfig} {s s' : Session} {e : SessionEvent}
    (h : s.step cfg e = some s') : SessionStep cfg s e s' := by
  cases e with
  | other req => exact Option.some.inj h ▸ .other req
  | count nowMs gateMs limit =>
      obtain ⟨push, hstep, rfl⟩ := Option.map_eq_some_iff.mp h
      exact .count (PushSession.step_cases hstep)
  | poll tsMs =>
      obtain ⟨max, hasked, rfl⟩ := Option.map_eq_some_iff.mp h
      exact .poll hasked
  | own e =>
      obtain ⟨he, h⟩ := Option.ite_none_left_eq_some.mp h
      obtain ⟨push, hstep, rfl⟩ := Option.map_eq_some_iff.mp h
      exact .own (Bool.eq_false_iff.mpr he) (PushSession.step_cases hstep)

/-- The loop of a session runs as a loop does with any answers to its
polls. -/
theorem Session.run_push {cfg : SubConfig} {s s' : Session} {events : List SessionEvent}
    (hrun : s.run cfg events = some s') :
    ∃ own, Machine.run (PushSession.step cfg.visibility) s.push own = some s'.push := by
  refine Machine.run_simulates (fun s e s' hstep => ?_) hrun
  cases e with
  | other req =>
      obtain rfl := Option.some.inj hstep
      exact .inl rfl
  | count nowMs gateMs limit =>
      obtain ⟨push, hpush, rfl⟩ := Option.map_eq_some_iff.mp hstep
      exact .inr ⟨_, hpush⟩
  | poll tsMs =>
      obtain ⟨max, hasked, rfl⟩ := Option.map_eq_some_iff.mp hstep
      exact .inr ⟨.answer _, by rw [PushSession.step, hasked]; rfl⟩
  | own e =>
      obtain ⟨push, hpush, rfl⟩ :=
        Option.map_eq_some_iff.mp (Option.ite_none_left_eq_some.mp hstep).2
      exact .inr ⟨e, hpush⟩

/-! ## The invariant -/

/-- What the session holds is of the current life of the topic; what it
sends as an ack the client has acked. -/
structure SessionOk (s : Session) : Prop where
  consistent : s.push.tracking.Consistent
  sourced : s.push.tracking.Sourced (fun l o => (l, s.incarnation, o) ∈ s.delivered)
    fun o => s.AckedByClient (s.incarnation, o)
  fresh : ∀ p ∈ s.delivered, p.1 < s.queue.nextLeaseId
  unique : ∀ {l m m'}, (l, m) ∈ s.delivered → (l, m') ∈ s.delivered → m = m'
  pushed : ∀ l ∈ s.push.pushed, ∃ m, (l, m) ∈ s.delivered
  items : ∀ d ∈ s.push.waiting ++ s.push.pushing.toList,
    (d.leaseId, s.incarnation, d.offset) ∈ s.delivered
  sent : ∀ l, (l, false) ∈ s.push.sent ++ s.push.reader.toList → s.OnAcked l

/-- The session remembers no offset and is handing none over. -/
def Session.Idle (s : Session) : Prop :=
  s.push.tracking.byOffset = ∅ ∧ s.push.tracking.ackedRecently = ∅ ∧ s.push.waiting = [] ∧
    s.push.pushing = none

/-- The event deletes the session's topic only while the session is idle. -/
def SessionEvent.Safe (cfg : SubConfig) (s : Session) : SessionEvent → Prop
  | .other req => req = .deleteTopic cfg.topic → s.queue.topics.contains cfg.topic = true →
      s.Idle
  | _ => True

/-- The client sends frames only for leases written to it, at the earliest
while they are being written. -/
def SessionEvent.Known (s : Session) : SessionEvent → Prop
  | .own (.read leaseId _ _) => leaseId ∈ s.push.pushed
  | _ => True

/-- Every event of the run is safe where it happens, and the lease counter
stays below the end of its range. -/
def SafeRun (cfg : SubConfig) (s : Session) (events : List SessionEvent) : Prop :=
  Machine.Along (Session.step cfg)
    (fun s e s' => e.Safe cfg s ∧ s'.queue.nextLeaseId < u64Max) s events

/-- In the run the client knows every lease it sends a frame for. -/
def KnownRun (cfg : SubConfig) (s : Session) (events : List SessionEvent) : Prop :=
  Machine.Along (Session.step cfg) (fun s e _ => e.Known s) s events

instance Session.decidableIdle (s : Session) : Decidable s.Idle :=
  inferInstanceAs (Decidable (_ ∧ _ ∧ _ ∧ _))

instance SessionEvent.decidableSafe (cfg : SubConfig) (s : Session) :
    (e : SessionEvent) → Decidable (e.Safe cfg s)
  | .other _ => inferInstanceAs (Decidable (_ → _ → _))
  | .count .. | .poll _ | .own _ => .isTrue trivial

instance SessionEvent.decidableKnown (s : Session) :
    (e : SessionEvent) → Decidable (e.Known s)
  | .own (.read leaseId _ _) => inferInstanceAs (Decidable (leaseId ∈ s.push.pushed))
  | .other _ | .count .. | .poll _ | .own (.count ..) | .own (.answer _) | .own .pollFailed
  | .own (.deliver _) | .own (.push _) | .own .send | .own .close | .own .abort =>
      .isTrue trivial

instance decidableSafeRun (cfg : SubConfig) (s : Session) (events : List SessionEvent) :
    Decidable (SafeRun cfg s events) :=
  inferInstanceAs (Decidable (Machine.Along _ _ _ _))

instance decidableKnownRun (cfg : SubConfig) (s : Session) (events : List SessionEvent) :
    Decidable (KnownRun cfg s events) :=
  inferInstanceAs (Decidable (Machine.Along _ _ _ _))

/-- What happened so far is never undone. -/
structure Session.Extends (s s' : Session) : Prop where
  acks : s.push.clientAcks ⊆ s'.push.clientAcks
  pushed : s.push.pushed ⊆ s'.push.pushed
  delivered : s.delivered ⊆ s'.delivered

theorem Session.Extends.acked {s s' : Session} (h : s.Extends s') {m : MessageId}
    (hm : s.AckedByClient m) : s'.AckedByClient m := by
  obtain ⟨l, hl, hpushed, hdelivered⟩ := hm
  exact ⟨l, h.acks hl, h.pushed hpushed, h.delivered hdelivered⟩

theorem Session.Extends.onAcked {s s' : Session} (h : s.Extends s') {l : LeaseId}
    (hl : s.OnAcked l) : s'.OnAcked l := by
  obtain ⟨m, hm, hacked⟩ := hl
  exact ⟨m, h.delivered hm, h.acked hacked⟩

namespace SessionOk

variable {cfg : SubConfig} {s : Session}

theorem start (q : Queue) : SessionOk { queue := q } where
  consistent := SubTracking.Consistent.empty
  sourced := SubTracking.Sourced.empty
  fresh := nofun
  unique h := by cases h
  pushed := nofun
  items := nofun
  sent := nofun

theorem other (h : SessionOk s) {req : AppRequest}
    (hsafe : req = .deleteTopic cfg.topic → s.queue.topics.contains cfg.topic = true → s.Idle)
    (hlt : (s.queue.apply req).1.nextLeaseId < u64Max) : SessionOk (s.other cfg req) := by
  have hle := ((apply_steps s.queue req).nextLease_le hlt).2
  have hfresh : ∀ p ∈ s.delivered, p.1 < (s.queue.apply req).1.nextLeaseId :=
    fun p hp => (h.fresh p hp).trans_le hle
  unfold Session.other
  split_ifs with hdel
  · obtain ⟨hoffsets, hacked, hwaiting, hpushing⟩ := hsafe hdel.1 hdel.2
    refine ⟨h.consistent, ⟨fun ht => ?_, fun hu => ?_⟩, hfresh, h.unique, h.pushed,
      fun d hd => ?_, h.sent⟩
    · rw [hoffsets] at ht
      cases ht
    · rw [hacked] at hu
      cases hu
    · simp [hwaiting, hpushing] at hd
  · exact ⟨h.consistent, h.sourced, hfresh, h.unique, h.pushed, h.items, h.sent⟩

theorem poll (h : SessionOk s) {max ts : Nat}
    (hlt : (s.poll cfg max ts).queue.nextLeaseId < u64Max) : SessionOk (s.poll cfg max ts) := by
  have hlt' : (s.queue.apply (.poll cfg.topic cfg.group max cfg.visibility ts)).1.nextLeaseId <
      u64Max := hlt
  have hle := ((apply_steps s.queue _).nextLease_le hlt').2
  obtain ⟨hids, hnd⟩ := apply_ids_fresh hlt'
  have hext : s.Extends (s.poll cfg max ts) :=
    ⟨List.Subset.refl _, List.Subset.refl _, List.subset_append_left ..⟩
  unfold Session.poll at hext ⊢
  generalize s.queue.apply (.poll cfg.topic cfg.group max cfg.visibility ts) = r at *
  have hnew : ∀ {l m}, (l, m) ∈ r.2.delivered.map (fun d => (d.leaseId, s.incarnation, d.offset)) →
      ∃ d ∈ r.2.delivered, d.leaseId = l ∧ m = (s.incarnation, d.offset) := by
    intro l m hm
    obtain ⟨d, hd, heq⟩ := List.mem_map.mp hm
    rw [Prod.mk.injEq] at heq
    exact ⟨d, hd, heq.1, heq.2.symm⟩
  refine ⟨h.consistent, h.sourced.mono (fun _ _ hm => hext.delivered hm) fun _ => hext.acked,
    fun p hp => ?_, fun {l m m'} hm hm' => ?_, fun l hl => ?_, fun d hd => ?_,
    fun l hl => hext.onAcked (h.sent l hl)⟩
  · obtain ⟨l, m⟩ := p
    rcases List.mem_append.mp hp with hp | hp
    · exact (h.fresh _ hp).trans_le hle
    · obtain ⟨d, hd, rfl, -⟩ := hnew hp
      exact (hids d hd).2
  · -- an id of an earlier poll is below the counter this poll starts at
    rcases List.mem_append.mp hm with hm | hm <;> rcases List.mem_append.mp hm' with hm' | hm'
    · exact h.unique hm hm'
    · obtain ⟨d, hd, rfl, -⟩ := hnew hm'
      exact absurd ((hids d hd).1.trans_lt (h.fresh _ hm)) (lt_irrefl _)
    · obtain ⟨d, hd, rfl, -⟩ := hnew hm
      exact absurd ((hids d hd).1.trans_lt (h.fresh _ hm')) (lt_irrefl _)
    · obtain ⟨d, hd, rfl, rfl⟩ := hnew hm
      obtain ⟨d', hd', hid, rfl⟩ := hnew hm'
      rw [List.inj_on_of_nodup_map hnd hd' hd hid]
  · obtain ⟨m, hm⟩ := h.pushed l hl
    exact ⟨m, hext.delivered hm⟩
  · rcases List.mem_append.mp hd with hd | hd
    · exact List.mem_append_right _ (List.mem_map.mpr ⟨d, hd, rfl⟩)
    · exact hext.delivered (h.items d (List.mem_append_right _ hd))

/-! ### Steps of the loop and its reader -/

section Own

variable {push : PushSession}

/-- The item on its way is one of those the poll delivered. -/
theorem deliverItem (h : SessionOk s) {d : Delivered} {rest : List Delivered} {now : Nat}
    (hwaiting : s.push.waiting = d :: rest) : SessionOk { s with
      push := { s.push with waiting := rest }.deliverItem d now cfg.visibility } := by
  have hd : (d.leaseId, s.incarnation, d.offset) ∈ s.delivered :=
    h.items d (by rw [hwaiting]; exact List.mem_cons_self)
  have hrest : ∀ d' ∈ rest ++ s.push.pushing.toList,
      (d'.leaseId, s.incarnation, d'.offset) ∈ s.delivered := fun d' hd' =>
    h.items d' (by rw [hwaiting]; exact List.mem_cons_of_mem _ hd')
  obtain ⟨hsourced, hacked⟩ :=
    h.sourced.deliver (satAdd now cfg.visibility) now (o := d.offset) hd
  have hconsistent := h.consistent.deliver d.offset d.leaseId (satAdd now cfg.visibility) now
  unfold PushSession.deliverItem
  simp only
  cases hr : (s.push.tracking.deliver d.offset d.leaseId (satAdd now cfg.visibility) now).2 with
  | refreshed => exact ⟨hconsistent, hsourced, h.fresh, h.unique, h.pushed, hrest, h.sent⟩
  | alreadyAcked =>
      refine ⟨hconsistent, hsourced, h.fresh, h.unique, h.pushed, hrest, fun l hl => ?_⟩
      rw [List.append_assoc, List.mem_append, List.singleton_append, List.mem_cons] at hl
      rcases hl with hl | hl | hl
      · exact h.sent l (List.mem_append_left _ hl)
      · rw [(Prod.mk.inj hl).1]
        exact ⟨_, hd, hacked hr⟩
      · exact h.sent l (List.mem_append_right _ hl)
  | push =>
      have hext : s.Extends { s with push := { s.push with
          waiting := rest
          tracking :=
            (s.push.tracking.deliver d.offset d.leaseId (satAdd now cfg.visibility) now).1
          pushing := some d
          pushed := s.push.pushed ++ [d.leaseId] } } :=
        ⟨List.Subset.refl _, List.subset_append_left .., List.Subset.refl _⟩
      refine ⟨hconsistent, hsourced.mono (fun _ _ => id) fun _ => hext.acked, h.fresh, h.unique,
        fun l hl => ?_, fun d' hd' => ?_, fun l hl => hext.onAcked (h.sent l hl)⟩
      · rcases List.mem_append.mp hl with hl | hl
        · exact h.pushed l hl
        · rw [List.mem_singleton.mp hl]
          exact ⟨_, hd⟩
      · rcases List.mem_append.mp hd' with hd' | hd'
        · exact hrest d' (List.mem_append_left _ hd')
        · rw [List.mem_singleton.mp hd']
          exact hd

theorem finish (h : SessionOk s) : SessionOk { s with push := s.push.finish } where
  consistent := SubTracking.Consistent.empty
  sourced := SubTracking.Sourced.empty
  fresh := h.fresh
  unique := h.unique
  pushed := h.pushed
  items := nofun
  sent l hl := by
    refine h.sent l ?_
    rcases List.mem_append.mp hl with hl | hl
    · rcases List.mem_append.mp hl with hl | hl
      · exact List.mem_append_left _ hl
      · obtain ⟨id, -, heq⟩ := List.mem_map.mp hl
        cases heq
    · exact List.mem_append_right _ hl

/-- An ack frame for a lease that was written to the client. -/
theorem readAck (h : SessionOk s) {l : LeaseId} {now : Nat} (hknown : l ∈ s.push.pushed) :
    SessionOk { s with push := s.push.read l false now } := by
  obtain ⟨m, hm⟩ := h.pushed l hknown
  have hext : s.Extends { s with push := s.push.read l false now } :=
    ⟨List.subset_append_left .., List.Subset.refl _, List.Subset.refl _⟩
  have hacked : Session.AckedByClient { s with push := s.push.read l false now } m :=
    ⟨l, List.mem_append_right _ (List.mem_singleton_self l), hknown, hm⟩
  -- whatever offset the lease stands for, it is the one it was delivered with
  have hsame : ∀ o, (l, s.incarnation, o) ∈ s.delivered → m = (s.incarnation, o) :=
    fun o ho => h.unique hm ho
  have hsourced := h.sourced.mono (fun _ _ => id) fun _ => hext.acked
  obtain ⟨hresolved, hlease⟩ := hsourced.resolve h.consistent l (some (satAdd now ackGraceMs))
    fun _ o _ ho => hsame o ho ▸ hacked
  refine ⟨h.consistent.resolve .., hresolved, h.fresh, h.unique, h.pushed, h.items,
    fun l' hl' => ?_⟩
  rcases List.mem_append.mp hl' with hl' | hl'
  · exact hext.onAcked (h.sent l' (List.mem_append_left _ hl'))
  · have hjob : l' = (s.push.tracking.resolve l (some (satAdd now ackGraceMs))).2.getD l :=
      (Prod.mk.inj (List.mem_singleton.mp hl')).1
    rw [hjob]
    cases hr : (s.push.tracking.resolve l (some (satAdd now ackGraceMs))).2 with
    | none => exact ⟨m, hm, hacked⟩
    | some latest =>
        obtain ⟨o, -, ho, hlatest⟩ := hlease latest hr
        exact ⟨_, hlatest, hsame o ho ▸ hacked⟩

theorem readNack (h : SessionOk s) (l : LeaseId) (now : Nat) :
    SessionOk { s with push := s.push.read l true now } := by
  obtain ⟨hresolved, -⟩ := h.sourced.resolve h.consistent l none fun hne => absurd rfl hne
  refine ⟨h.consistent.resolve .., hresolved, h.fresh, h.unique, h.pushed, h.items,
    fun l' hl' => ?_⟩
  rcases List.mem_append.mp hl' with hl' | hl'
  · exact h.sent l' (List.mem_append_left _ hl')
  · cases (Prod.mk.inj (List.mem_singleton.mp hl')).2

/-- The loop and its reader, with a client that knows its leases. -/
theorem own (h : SessionOk s) {e : PushEvent} (hstep : PushStep cfg.visibility s.push e push)
    (he : ∀ items, e ≠ .answer items) (hknown : SessionEvent.Known s (.own e)) :
    SessionOk { s with push := push } := by
  cases hstep with
  | count htop =>
      exact ⟨h.consistent.liveCount .., h.sourced.liveCount .., h.fresh, h.unique, h.pushed,
        h.items, h.sent⟩
  | answer hasked => exact absurd rfl (he _)
  | pollFailed hasked => exact h.finish
  | deliver hwaiting hpushing => exact h.deliverItem hwaiting
  | pushed hpushing =>
      refine ⟨h.consistent, h.sourced, h.fresh, h.unique, h.pushed, fun d hd => ?_, h.sent⟩
      exact h.items d (List.mem_append_left _ (by simpa using hd))
  | pushFailed hpushing => exact h.finish
  | @read l nack now hgone hreader =>
      cases nack with
      | true => exact h.readNack l now
      | false => exact h.readAck hknown
  | send hreader =>
      refine ⟨h.consistent, h.sourced, h.fresh, h.unique, h.pushed, h.items, fun l hl => ?_⟩
      exact h.sent l (by rw [hreader]; simpa using hl)
  | close htop => exact h.finish
  | abort hclosed hgone =>
      refine ⟨h.consistent, h.sourced, h.fresh, h.unique, h.pushed, h.items, fun l hl => ?_⟩
      exact h.sent l (List.mem_append_left _ (by simpa using hl))

end Own

theorem step (h : SessionOk s) {e : SessionEvent} {s' : Session} (hstep : s.step cfg e = some s')
    (hsafe : e.Safe cfg s) (hlt : s'.queue.nextLeaseId < u64Max) (hknown : e.Known s) :
    SessionOk s' := by
  cases Session.step_cases hstep with
  | other req => exact h.other hsafe hlt
  | count hpush => exact h.own hpush (fun _ => PushEvent.noConfusion) trivial
  | poll hasked => exact h.poll hlt
  | own he hpush =>
      refine h.own hpush (fun items heq => ?_) hknown
      rw [heq] at he
      cases he

theorem run (h : SessionOk s) {events : List SessionEvent} (hknown : KnownRun cfg s events)
    (hsafe : SafeRun cfg s events) {s' : Session} (hrun : s.run cfg events = some s') :
    SessionOk s' :=
  Machine.run_invariant (fun _ _ _ h hstep hallowed =>
    h.step hstep hallowed.1.1 hallowed.1.2 hallowed.2) h (hsafe.and hknown) hrun

end SessionOk

/-- A session acks a lease only for a client that acked its message. The
client sends frames only for leases written to it. In every run in which the
topic is deleted only while the session remembers no offset and hands none
over, every lease that the loop or the reader has sent as an ack is on a
message that the client has acked under a lease written to it. -/
theorem session_acks_only_acked (cfg : SubConfig) (q : Queue) (events : List SessionEvent)
    (hknown : KnownRun cfg { queue := q } events) (hsafe : SafeRun cfg { queue := q } events)
    {s : Session} (hrun : Session.run cfg { queue := q } events = some s) : s.AcksOnlyAcked :=
  fun l hl => ((SessionOk.start q).run hknown hsafe hrun).sent l (List.mem_append_left _ hl)

def subConfig : SubConfig := ⟨"t", "g", 4, 10⟩

/-- A message is produced, pushed and acked by the client. -/
def ackedOnce : List SessionEvent :=
  [.other (.produce "t" .default .raw [1] "" 0 1), .count 1 1 (some 4), .poll 1, .own (.deliver 1),
    .own (.push true), .own (.read 0 false 2), .own .send]

/-- The lease runs out before the ack reaches the queue; the redelivery is
acked on behalf of the client. -/
def redelivered : List SessionEvent :=
  ackedOnce ++ [.count 20 20 (some 4), .poll 20, .own (.deliver 20)]

theorem session_acks_only_acked_redelivery :
    ∃ s, Session.run subConfig { queue := {} } redelivered = some s ∧
      s.push.sent = [(0, false), (1, false)] ∧ s.AcksOnlyAcked := by
  have hknown : KnownRun subConfig { queue := {} } redelivered := by decide
  have hsafe : SafeRun subConfig { queue := {} } redelivered := by decide
  have hsent : (Session.run subConfig { queue := {} } redelivered).map (·.push.sent) =
      some [(0, false), (1, false)] := by decide
  obtain ⟨s, hrun, hacks⟩ := Option.map_eq_some_iff.mp hsent
  exact ⟨s, hrun, hacks, session_acks_only_acked _ _ _ hknown hsafe hrun⟩

/-- Within the grace time of the client's ack the topic is deleted, and
created again by a produce. The new message has the offset of the acked
one. -/
def recreated : List SessionEvent :=
  ackedOnce ++ [.other (.deleteTopic "t"), .other (.produce "t" .default .raw [2] "" 0 3),
    .count 3 3 (some 4), .poll 3, .own (.deliver 3)]

/-- The session acks the new message, which it never pushed. -/
theorem fresh_message_acked :
    KnownRun subConfig { queue := {} } recreated ∧
      ∃ s, Session.run subConfig { queue := {} } recreated = some s ∧ ¬s.AcksOnlyAcked := by
  have hsent : (Session.run subConfig { queue := {} } recreated).map (·.push.sent) =
      some [(0, false), (1, false)] := by decide
  have hdelivered : (Session.run subConfig { queue := {} } recreated).map (·.delivered) =
      some [(0, 0, 0), (1, 1, 0)] := by decide
  have hpushed : (Session.run subConfig { queue := {} } recreated).map (·.push.pushed) =
      some [0] := by decide
  obtain ⟨s, hrun, hacks⟩ := Option.map_eq_some_iff.mp hsent
  rw [hrun, Option.map_some, Option.some.injEq] at hdelivered hpushed
  refine ⟨by decide, s, hrun, fun hall => ?_⟩
  obtain ⟨m, hm, l, -, hpush, hsame⟩ := hall 1 (by simp [hacks])
  rw [hdelivered] at hm hsame
  rw [hpushed] at hpush
  obtain rfl : m = (1, 0) := by simpa using hm
  obtain rfl := List.mem_singleton.mp hpush
  simp at hsame

end HermesMq
