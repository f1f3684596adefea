import HermesMq.Machine
import HermesMq.SubTracking

/-!
# The loop of a subscription

A push subscription in manual ack mode is a loop and a reader, which is a
task of its own. The loop counts what its client still works on, polls for
the rest of the prefetch window, takes the answer item by item through its
`SubTracking`, and writes what is new to the client. The reader turns the
client's frames into acks and nacks. It takes the lease out of the tracking
first and then sends the job, and may have to wait for the channel in
between. When the loop ends it aborts the reader, which may go on for a
while: `abort` takes effect where the task next waits.

What a poll asks for and what it brings comes from outside. `Session` puts
the loop next to the queue it consumes from. `PushStep` says what each event
does, and everything about sessions goes through it.
-/

namespace HermesMq

structure PushSession where
  tracking : SubTracking := {}
  /-- What the poll on its way asks for. -/
  asked : Option Nat := none
  /-- What the loop has not come to of the last poll. -/
  waiting : List Delivered := []
  /-- The item that is being written to the client. -/
  pushing : Option Delivered := none
  closed : Bool := false
  /-- The job that the reader is about to send, and whether it is a nack. -/
  reader : Option (LeaseId × Bool) := none
  readerGone : Bool := false
  /-- The jobs that the loop and the reader have sent. -/
  sent : List (LeaseId × Bool) := []
  -- what happened so far, which the code does not record
  /-- The latest time of a count. -/
  clock : Nat := 0
  polled : List Delivered := []
  /-- The leases that the loop has begun to write to the client, and those
  that the client sent an ack for. -/
  pushed : List LeaseId := []
  clientAcks : List LeaseId := []
  /-- Leases that `live_count` has dropped. -/
  lapsed : List LeaseId := []
  /-- The lease that the reader had in hand when it was stopped. -/
  cut : Option LeaseId := none

inductive PushEvent where
  /-- The top of the loop: `live_count`, and what the poll asks for, if
  there is one. -/
  | count (nowMs : Nat) (asked : Option Nat)
  /-- The poll is answered. -/
  | answer (items : List Delivered)
  /-- The poll fails, which ends the session. -/
  | pollFailed
  /-- The next item goes through the tracking. -/
  | deliver (nowMs : Nat)
  /-- The write to the client ends. -/
  | push (ok : Bool)
  /-- The reader gets an ack or a nack frame. -/
  | read (leaseId : LeaseId) (nack : Bool) (nowMs : Nat)
  | send
  | close
  /-- The abort takes effect. -/
  | abort

namespace PushSession

/-- The loop is at its top. -/
def AtTop (s : PushSession) : Prop :=
  s.closed = false ∧ s.asked = none ∧ s.waiting = [] ∧ s.pushing = none

instance decidableAtTop (s : PushSession) : Decidable s.AtTop :=
  inferInstanceAs (Decidable (_ ∧ _ ∧ _ ∧ _))

/-- Count what is live; what is out of date is forgotten. -/
def count (s : PushSession) (nowMs visibility : Nat) (asked : Option Nat) : PushSession :=
  let gone := s.tracking.byOffset.filter fun _ track => SubTracking.stale nowMs visibility track
  { s with tracking := (s.tracking.liveCount nowMs visibility).1
           asked := asked
           clock := max s.clock nowMs
           lapsed := s.lapsed ++ gone.values.map (·.leaseId) }

def answer (s : PushSession) (items : List Delivered) : PushSession :=
  { s with asked := none, waiting := items, polled := s.polled ++ items }

/-- The body of the delivery loop for one item. -/
def deliverItem (s : PushSession) (d : Delivered) (nowMs visibility : Nat) : PushSession :=
  let (tracking, delivery) :=
    s.tracking.deliver d.offset d.leaseId (satAdd nowMs visibility) nowMs
  match delivery with
  | .refreshed => { s with tracking := tracking }
  | .alreadyAcked => { s with tracking := tracking, sent := s.sent ++ [(d.leaseId, false)] }
  | .push =>
      { s with tracking := tracking, pushing := some d, pushed := s.pushed ++ [d.leaseId] }

/-- The first half of what the reader does with a frame. -/
def read (s : PushSession) (leaseId : LeaseId) (nack : Bool) (nowMs : Nat) : PushSession :=
  let ackedUntil := if nack then none else some (satAdd nowMs ackGraceMs)
  let (tracking, resolved) := s.tracking.resolve leaseId ackedUntil
  { s with tracking := tracking
           reader := some (resolved.getD leaseId, nack)
           clientAcks := if nack then s.clientAcks else s.clientAcks ++ [leaseId] }

/-- The end of `handle_subscribe`: what was not handed over is nacked. -/
def finish (s : PushSession) : PushSession :=
  let (tracking, leases) := s.tracking.drainLeases
  { s with tracking := tracking, asked := none, waiting := [], pushing := none, closed := true
           sent := s.sent ++ (s.waiting.map (·.leaseId) ++ leases).map fun id => (id, true) }

/-- One step; `none` when the event cannot happen in this state. -/
def step (visibility : Nat) (s : PushSession) : PushEvent → Option PushSession
  | .count nowMs asked => if s.AtTop then some (s.count nowMs visibility asked) else none
  | .answer items => s.asked.map fun _ => s.answer items
  | .pollFailed => s.asked.map fun _ => s.finish
  | .deliver nowMs =>
      match s.waiting, s.pushing with
      | d :: rest, none => some ({ s with waiting := rest }.deliverItem d nowMs visibility)
      | _, _ => none
  | .push ok =>
      s.pushing.map fun _ => if ok then { s with pushing := none } else s.finish
  | .read leaseId nack nowMs =>
      if s.readerGone = false ∧ s.reader = none then some (s.read leaseId nack nowMs) else none
  | .send => s.reader.map fun job => { s with sent := s.sent ++ [job], reader := none }
  | .close => if s.AtTop then some s.finish else none
  | .abort =>
      if s.closed = true ∧ s.readerGone = false then
        some { s with readerGone := true, reader := none, cut := s.reader.map Prod.fst }
      else none

def run (visibility : Nat) (events : List PushEvent) : Option PushSession :=
  Machine.run (step visibility) {} events

end PushSession

/-- The steps of the loop and its reader. -/
inductive PushStep (visibility : Nat) (s : PushSession) : PushEvent → PushSession → Prop
  | count {nowMs : Nat} {asked : Option Nat} (htop : s.AtTop) :
      PushStep visibility s (.count nowMs asked) (s.count nowMs visibility asked)
  | answer {items : List Delivered} {max : Nat} (hasked : s.asked = some max) :
      PushStep visibility s (.answer items) (s.answer items)
  | pollFailed {max : Nat} (hasked : s.asked = some max) :
      PushStep visibility s .pollFailed s.finish
  | deliver {nowMs : Nat} {d : Delivered} {rest : List Delivered}
      (hwaiting : s.waiting = d :: rest) (hpushing : s.pushing = none) :
      PushStep visibility s (.deliver nowMs)
        ({ s with waiting := rest }.deliverItem d nowMs visibility)
  | pushed {d : Delivered} (hpushing : s.pushing = some d) :
      PushStep visibility s (.push true) { s with pushing := none }
  | pushFailed {d : Delivered} (hpushing : s.pushing = some d) :
      PushStep visibility s (.push false) s.finish
  | read {leaseId : LeaseId} {nack : Bool} {nowMs : Nat} (hgone : s.readerGone = false)
      (hreader : s.reader = none) :
      PushStep visibility s (.read leaseId nack nowMs) (s.read leaseId nack nowMs)
  | send {job : LeaseId × Bool} (hreader : s.reader = some job) :
      PushStep visibility s .send { s with sent := s.sent ++ [job], reader := none }
  | close (htop : s.AtTop) : PushStep visibility s .close s.finish
  | abort (hclosed : s.closed = true) (hgone : s.readerGone = false) :
      PushStep visibility s .abort
        { s with readerGone := true, reader := none, cut := s.reader.map Prod.fst }

namespace PushSession

theorem step_cases {visibility : Nat} {s s' : PushSession} {e : PushEvent}
    (h : s.step visibility e = some s') : PushStep visibility s e s' := by
  cases e with
  | count nowMs asked =>
      obtain ⟨htop, hs'⟩ := Option.ite_none_right_eq_some.mp h
      exact Option.some.inj hs' ▸ .count htop
  | answer items =>
      obtain ⟨max, hasked, rfl⟩ := Option.map_eq_some_iff.mp h
      exact .answer hasked
  | pollFailed =>
      obtain ⟨max, hasked, rfl⟩ := Option.map_eq_some_iff.mp h
      exact .pollFailed hasked
  | deliver nowMs =>
      rw [step] at h
      split at h
      · next d rest hwaiting hpushing => exact Option.some.inj h ▸ .deliver hwaiting hpushing
      · cases h
  | push ok =>
      obtain ⟨d, hpushing, rfl⟩ := Option.map_eq_some_iff.mp h
      cases ok with
      | true => exact .pushed hpushing
      | false => exact .pushFailed hpushing
  | read leaseId nack nowMs =>
      obtain ⟨⟨hgone, hreader⟩, hs'⟩ := Option.ite_none_right_eq_some.mp h
      exact Option.some.inj hs' ▸ .read hgone hreader
  | send =>
      obtain ⟨job, hreader, rfl⟩ := Option.map_eq_some_iff.mp h
      exact .send hreader
  | close =>
      obtain ⟨htop, hs'⟩ := Option.ite_none_right_eq_some.mp h
      exact Option.some.inj hs' ▸ .close htop
  | abort =>
      obtain ⟨⟨hclosed, hgone⟩, hs'⟩ := Option.ite_none_right_eq_some.mp h
      exact Option.some.inj hs' ▸ .abort hclosed hgone

end PushSession

end HermesMq
