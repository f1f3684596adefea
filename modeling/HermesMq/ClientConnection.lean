import HermesMq.ClientProtocol
import HermesMq.Machine

/-!
# A client connection

`handle_client` reads frames in a loop and answers them through a task
that writes. Between the two is a channel of pending answers: the loop
opens one for each frame, in the order of the frames, and a request's own
task fills it whenever it is done. There are no request ids, so a client
tells its answers apart by their order alone.

A connection is a machine: an event is one await that resolves, in the
loop, in the writing task, in a request's task or in the subscription that
takes the connection over. Every interleaving is a run. The answers that
are written are in the order of the frames in all of them, and a
subscription waits for all the answers before it (`responses_in_order`).
-/

namespace HermesMq

def pipelineDepth : Nat := 32

/-- A frame of a client: a request, or the error of decoding it. -/
abbrev ClientFrame := Except String Request

/-! ## What the loop does with a frame -/

inductive FrameAction where
  | answer (resp : Response)
  | accept
  | refuse
  | spawn (req : Request)
  | subscribe (sub : SubscribeFrame)

/-- The request is an `Auth` with the configured token. -/
def Request.presents (req : Request) (token : Option Bytes) : Bool :=
  match req.kind, token with
  | some (.auth offered), some expected => secretEq (utf8Bytes offered) expected
  | _, _ => false

def handleFrame (token : Option Bytes) (authed : Bool) : ClientFrame → FrameAction
  | .error e => .answer (respError "bad_request" e)
  | .ok req =>
      if authed then
        match req.kind with
        | some (.subscribe sub) => .subscribe sub
        | _ => .spawn req
      else if req.presents token then .accept
      else .refuse

/-! ## The connection -/

/-- The channel of one answer. A sender that is dropped leaves it empty. -/
inductive Oneshot where
  | pending
  | sent (resp : Response)
  | dropped
deriving DecidableEq

/-- A frame and its answer; `spawned` if `handle_request` is to give it. -/
structure Slot where
  frame : ClientFrame
  spawned : Bool
  answer : Oneshot

def Slot.response? (slot : Slot) : Option Response :=
  match slot.answer with
  | .sent resp => some resp
  | _ => none

/-- Where the loop is. `sending` knows if the loop goes on after the slot
is sent, and after it could not be. -/
inductive Reader where
  | reading
  | sending (slot : Nat) (ifSent ifFailed : Bool)
  | ended (sub : Option SubscribeFrame)
  | subscribed (sub : SubscribeFrame)
  | closed (sub : Option SubscribeFrame)

namespace Reader

def next (goOn : Bool) : Reader := if goOn then .reading else .ended none

/-- The loop is over, and the sender of the channel dropped. -/
def finished : Reader → Bool
  | .reading | .sending .. => false
  | _ => true

def slots : Reader → List Nat
  | .sending slot _ _ => [slot]
  | _ => []

/-- The frame of the subscription the loop ended with. -/
def subFrame : Reader → List ClientFrame
  | .ended (some sub) | .subscribed sub | .closed (some sub) => [.ok ⟨some (.subscribe sub)⟩]
  | _ => []

end Reader

/-- Where the writing task is; `returned` with the stream's write half. -/
inductive Writer where
  | receiving
  | awaiting (slot : Nat)
  | writing (slot : Nat) (resp : Response)
  | returned
  | panicked

namespace Writer

/-- The task is over, and the receiver of the channel dropped. -/
def finished : Writer → Bool
  | .returned | .panicked => true
  | _ => false

def slots : Writer → List Nat
  | .awaiting slot | .writing slot _ => [slot]
  | _ => []

end Writer

/-- A connection; `slots` are all the answers it ever opened, the channel
between the loop and the writer holds some of them by number. -/
structure ClientConn where
  authed : Bool
  reader : Reader := .reading
  slots : List Slot := []
  queue : List Nat := []
  writer : Writer := .receiving
  written : List Response := []
  /-- What the subscription wrote. -/
  pushed : List Response := []

inductive ConnEvent where
  | frame (f : ClientFrame)
  | readFailed
  /-- `tx.send` resolves. -/
  | send
  /-- A request's task answers. -/
  | answer (slot : Nat) (resp : Response)
  /-- A request's task ends without an answer. -/
  | drop (slot : Nat)
  /-- `rx.recv` resolves. -/
  | recv
  /-- The pending answer the writer waits for resolves. -/
  | resolve
  | wrote
  | writeFailed
  | writerPanicked
  /-- The loop is over and `writer.await` resolves. -/
  | joined
  /-- The subscription writes. -/
  | push (resp : Response)

namespace ClientConn

/-- Open the answer of a frame and send it to the writer. -/
def openSlot (s : ClientConn) (slot : Slot) (ifSent ifFailed : Bool) : ClientConn :=
  { s with
    slots := s.slots ++ [slot]
    reader := .sending s.slots.length ifSent ifFailed }

def onFrame (token : Option Bytes) (s : ClientConn) (f : ClientFrame) : ClientConn :=
  match handleFrame token s.authed f with
  | .answer resp => s.openSlot ⟨f, false, .sent resp⟩ true false
  -- the loop goes on even if the answer could not be sent
  | .accept => { s with authed := true }.openSlot ⟨f, false, .sent .ok⟩ true true
  | .refuse =>
      s.openSlot ⟨f, false, .sent (respError "unauthorized" "authenticate first")⟩ false false
  | .spawn _ => s.openSlot ⟨f, true, .pending⟩ true false
  | .subscribe sub => { s with reader := .ended (some sub) }

/-- The end of a request's task. -/
def finish (s : ClientConn) (slot : Nat) (answer : Oneshot) : Option ClientConn :=
  match s.slots[slot]? with
  | some ⟨f, true, .pending⟩ => some { s with slots := s.slots.set slot ⟨f, true, answer⟩ }
  | _ => none

def send (s : ClientConn) : Option ClientConn :=
  match s.reader with
  | .sending slot ifSent ifFailed =>
      if s.writer.finished then some { s with reader := .next ifFailed }
      else if s.queue.length < pipelineDepth then
        some { s with queue := s.queue ++ [slot], reader := .next ifSent }
      else none
  | _ => none

def recv (s : ClientConn) : Option ClientConn :=
  match s.writer, s.queue with
  | .receiving, slot :: rest => some { s with queue := rest, writer := .awaiting slot }
  | .receiving, [] => if s.reader.finished then some { s with writer := .returned } else none
  | _, _ => none

def resolve (s : ClientConn) : Option ClientConn :=
  match s.writer with
  | .awaiting slot =>
      match (s.slots[slot]?).map Slot.answer with
      | some (.sent resp) => some { s with writer := .writing slot resp }
      | some .dropped => some { s with writer := .returned }
      | _ => none
  | _ => none

def step (token : Option Bytes) (s : ClientConn) : ConnEvent → Option ClientConn
  | .frame f =>
      match s.reader with
      | .reading => some (s.onFrame token f)
      | _ => none
  | .readFailed =>
      match s.reader with
      | .reading => some { s with reader := .ended none }
      | _ => none
  | .send => s.send
  | .answer slot resp => s.finish slot (.sent resp)
  | .drop slot => s.finish slot .dropped
  | .recv => s.recv
  | .resolve => s.resolve
  | .wrote =>
      match s.writer with
      | .writing _ resp => some { s with written := s.written ++ [resp], writer := .receiving }
      | _ => none
  | .writeFailed =>
      match s.writer with
      | .writing _ _ => some { s with writer := .returned }
      | _ => none
  | .writerPanicked => if s.writer.finished then none else some { s with writer := .panicked }
  | .joined =>
      match s.reader, s.writer with
      | .ended (some sub), .returned => some { s with reader := .subscribed sub }
      | .ended none, .returned => some { s with reader := .closed none }
      | .ended sub, .panicked => some { s with reader := .closed sub }
      | _, _ => none
  | .push resp =>
      match s.reader with
      | .subscribed _ => some { s with pushed := s.pushed ++ [resp] }
      | _ => none

/-- A connection that was just accepted. -/
def start (token : Option Bytes) : ClientConn := { authed := token.isNone }

def run (token : Option Bytes) (events : List ConnEvent) : Option ClientConn :=
  Machine.run (step token) (start token) events

end ClientConn

/-! ## What a step can do -/

/-- What becomes of a frame. -/
inductive FrameStep (token : Option Bytes) (s : ClientConn) : ClientFrame → ClientConn → Prop
  | badRequest {e : String} :
      FrameStep token s (.error e)
        (s.openSlot ⟨.error e, false, .sent (respError "bad_request" e)⟩ true false)
  | admitted {req : Request} (ha : s.authed = false) (hp : req.presents token = true) :
      FrameStep token s (.ok req)
        ({ s with authed := true }.openSlot ⟨.ok req, false, .sent .ok⟩ true true)
  | refused {req : Request} (ha : s.authed = false) (hp : req.presents token = false) :
      FrameStep token s (.ok req)
        (s.openSlot ⟨.ok req, false, .sent (respError "unauthorized" "authenticate first")⟩ false
          false)
  | spawned {req : Request} (ha : s.authed = true) :
      FrameStep token s (.ok req) (s.openSlot ⟨.ok req, true, .pending⟩ true false)
  | subscribed {sub : SubscribeFrame} (ha : s.authed = true) :
      FrameStep token s (.ok ⟨some (.subscribe sub)⟩) { s with reader := .ended (some sub) }

/-- The steps of a connection, one constructor for each outcome. -/
inductive ConnStep (token : Option Bytes) (s : ClientConn) : ConnEvent → ClientConn → Prop
  | frame {f : ClientFrame} {s' : ClientConn} (hr : s.reader = .reading)
      (hf : FrameStep token s f s') : ConnStep token s (.frame f) s'
  | readFailed (hr : s.reader = .reading) :
      ConnStep token s .readFailed { s with reader := .ended none }
  | sent {slot : Nat} {ifSent ifFailed : Bool} (hr : s.reader = .sending slot ifSent ifFailed)
      (hw : s.writer.finished = false) :
      ConnStep token s .send { s with queue := s.queue ++ [slot], reader := .next ifSent }
  | sendFailed {slot : Nat} {ifSent ifFailed : Bool}
      (hr : s.reader = .sending slot ifSent ifFailed) (hw : s.writer.finished = true) :
      ConnStep token s .send { s with reader := .next ifFailed }
  | answered {slot : Nat} {f : ClientFrame} {resp : Response}
      (h : s.slots[slot]? = some ⟨f, true, .pending⟩) :
      ConnStep token s (.answer slot resp)
        { s with slots := s.slots.set slot ⟨f, true, .sent resp⟩ }
  | dropped {slot : Nat} {f : ClientFrame} (h : s.slots[slot]? = some ⟨f, true, .pending⟩) :
      ConnStep token s (.drop slot) { s with slots := s.slots.set slot ⟨f, true, .dropped⟩ }
  | received {slot : Nat} {rest : List Nat} (hw : s.writer = .receiving)
      (hq : s.queue = slot :: rest) :
      ConnStep token s .recv { s with queue := rest, writer := .awaiting slot }
  | drained (hw : s.writer = .receiving) (hq : s.queue = []) (hr : s.reader.finished = true) :
      ConnStep token s .recv { s with writer := .returned }
  | resolved {slot : Nat} {resp : Response} (hw : s.writer = .awaiting slot)
      (h : (s.slots[slot]?).map Slot.answer = some (.sent resp)) :
      ConnStep token s .resolve { s with writer := .writing slot resp }
  | lost {slot : Nat} (hw : s.writer = .awaiting slot)
      (h : (s.slots[slot]?).map Slot.answer = some .dropped) :
      ConnStep token s .resolve { s with writer := .returned }
  | wrote {slot : Nat} {resp : Response} (hw : s.writer = .writing slot resp) :
      ConnStep token s .wrote { s with written := s.written ++ [resp], writer := .receiving }
  | writeFailed {slot : Nat} {resp : Response} (hw : s.writer = .writing slot resp) :
      ConnStep token s .writeFailed { s with writer := .returned }
  | writerPanicked (hw : s.writer.finished = false) :
      ConnStep token s .writerPanicked { s with writer := .panicked }
  | subscribed {sub : SubscribeFrame} (hr : s.reader = .ended (some sub))
      (hw : s.writer = .returned) :
      ConnStep token s .joined { s with reader := .subscribed sub }
  | closed {sub : Option SubscribeFrame} (hr : s.reader = .ended sub) :
      ConnStep token s .joined { s with reader := .closed sub }
  | pushed {sub : SubscribeFrame} {resp : Response} (hr : s.reader = .subscribed sub) :
      ConnStep token s (.push resp) { s with pushed := s.pushed ++ [resp] }

namespace ClientConn

variable {token : Option Bytes} {s s' : ClientConn} {e : ConnEvent}

theorem onFrame_cases (token : Option Bytes) (s : ClientConn) (f : ClientFrame) :
    FrameStep token s f (s.onFrame token f) := by
  cases f with
  | error e => exact .badRequest
  | ok req =>
      obtain ⟨kind⟩ := req
      by_cases ha : s.authed = true
      · rw [onFrame, handleFrame, if_pos ha]
        cases kind with
        | none => exact .spawned ha
        | some kind =>
            cases kind with
            | subscribe sub => exact .subscribed ha
            | _ => exact .spawned ha
      · rw [onFrame, handleFrame, if_neg ha]
        by_cases hp : Request.presents ⟨kind⟩ token = true
        · rw [if_pos hp]
          exact .admitted (Bool.eq_false_iff.mpr ha) hp
        · rw [if_neg hp]
          exact .refused (Bool.eq_false_iff.mpr ha) (Bool.eq_false_iff.mpr hp)

theorem finish_eq_some {slot : Nat} {answer : Oneshot} (h : s.finish slot answer = some s') :
    ∃ f, s.slots[slot]? = some ⟨f, true, .pending⟩ ∧
      s' = { s with slots := s.slots.set slot ⟨f, true, answer⟩ } := by
  rw [finish] at h
  split at h
  · next f hslot => exact ⟨f, hslot, (Option.some.inj h).symm⟩
  · cases h

theorem step_cases (h : s.step token e = some s') : ConnStep token s e s' := by
  cases e with
  | frame f =>
      simp only [step] at h
      split at h
      · next hr => exact Option.some.inj h ▸ .frame hr (onFrame_cases token s f)
      · cases h
  | readFailed =>
      simp only [step] at h
      split at h
      · next hr => exact Option.some.inj h ▸ .readFailed hr
      · cases h
  | send =>
      simp only [step, send] at h
      split at h
      · next hr =>
          split at h
          · next hw => exact Option.some.inj h ▸ .sendFailed hr hw
          · next hw =>
              split at h
              · exact Option.some.inj h ▸ .sent hr (Bool.eq_false_iff.mpr hw)
              · cases h
      · cases h
  | answer slot resp =>
      obtain ⟨f, hslot, rfl⟩ := finish_eq_some h
      exact .answered hslot
  | drop slot =>
      obtain ⟨f, hslot, rfl⟩ := finish_eq_some h
      exact .dropped hslot
  | recv =>
      simp only [step, recv] at h
      split at h
      · next hw hq => exact Option.some.inj h ▸ .received hw hq
      · next hw hq =>
          split at h
          · next hr => exact Option.some.inj h ▸ .drained hw hq hr
          · cases h
      · cases h
  | resolve =>
      simp only [step, resolve] at h
      split at h
      · next hw =>
          split at h
          · next hs => exact Option.some.inj h ▸ .resolved hw hs
          · next hs => exact Option.some.inj h ▸ .lost hw hs
          · cases h
      · cases h
  | wrote =>
      simp only [step] at h
      split at h
      · next hw => exact Option.some.inj h ▸ .wrote hw
      · cases h
  | writeFailed =>
      simp only [step] at h
      split at h
      · next hw => exact Option.some.inj h ▸ .writeFailed hw
      · cases h
  | writerPanicked =>
      simp only [step] at h
      split at h
      · cases h
      · next hw => exact Option.some.inj h ▸ .writerPanicked (Bool.eq_false_iff.mpr hw)
  | joined =>
      simp only [step] at h
      split at h
      · next hr hw => exact Option.some.inj h ▸ .subscribed hr hw
      · next hr _ => exact Option.some.inj h ▸ .closed hr
      · next hr _ => exact Option.some.inj h ▸ .closed hr
      · cases h
  | push resp =>
      simp only [step] at h
      split at h
      · next hr => exact Option.some.inj h ▸ .pushed hr
      · cases h

end ClientConn

/-- A frame takes the connection over, or opens its answer. -/
theorem FrameStep.opened {token : Option Bytes} {s s' : ClientConn} {f : ClientFrame}
    (h : FrameStep token s f s') :
    (∃ sub, f = .ok ⟨some (.subscribe sub)⟩ ∧ s' = { s with reader := .ended (some sub) }) ∨
    ∃ spawned answer authed ifSent ifFailed,
      s' = { s with authed := authed }.openSlot ⟨f, spawned, answer⟩ ifSent ifFailed ∧
        answer ≠ .dropped := by
  cases h with
  | badRequest => exact .inr ⟨_, _, s.authed, _, _, rfl, fun h => by cases h⟩
  | admitted => exact .inr ⟨_, _, true, _, _, rfl, fun h => by cases h⟩
  | refused => exact .inr ⟨_, _, s.authed, _, _, rfl, fun h => by cases h⟩
  | spawned => exact .inr ⟨_, _, s.authed, _, _, rfl, fun h => by cases h⟩
  | subscribed => exact .inl ⟨_, rfl, rfl⟩

/-! ## Answers are written in order -/

theorem prefix_concat_of_getElem? {α : Type} {l m : List α} {x : α} (h : l <+: m)
    (hx : m[l.length]? = some x) : l ++ [x] <+: m := by
  obtain ⟨t, rfl⟩ := h
  rw [List.getElem?_append_right (Nat.le_refl _), Nat.sub_self] at hx
  cases t with
  | nil => cases hx
  | cons y t =>
      cases hx
      exact ⟨t, by rw [List.append_assoc, List.singleton_append]⟩

/-- Filling in a place beyond a prefix of filled ones keeps the prefix. -/
theorem prefix_set_of_none {α : Type} {l : List α} {m : List (Option α)} {i : Nat}
    (h : l.map some <+: m) (hi : m[i]? = some none) (x : Option α) : l.map some <+: m.set i x := by
  obtain ⟨t, rfl⟩ := h
  have hle : (l.map some).length ≤ i := by
    by_contra hlt
    rw [List.getElem?_append_left (Nat.lt_of_not_le hlt), List.getElem?_map] at hi
    cases hl : l[i]? with
    | none => rw [hl] at hi; cases hi
    | some y => rw [hl] at hi; cases hi
  rw [List.set_append_right _ _ hle]
  exact List.prefix_append _ _

namespace ClientConn

/-- The answers so far, in the order of their frames. -/
def responses (s : ClientConn) : List (Option Response) := s.slots.map Slot.response?

section

variable {s : ClientConn}

theorem responses_openSlot (slot : Slot) (authed ifSent ifFailed : Bool) :
    ({ s with authed := authed }.openSlot slot ifSent ifFailed).responses =
      s.responses ++ [slot.response?] := by
  simp only [responses, openSlot, List.map_append, List.map_cons, List.map_nil]

theorem responses_pending {i : Nat} {f : ClientFrame}
    (hi : s.slots[i]? = some ⟨f, true, .pending⟩) : s.responses[i]? = some none := by
  rw [responses, List.getElem?_map, hi]
  rfl

theorem responses_set (i : Nat) (slot : Slot) :
    responses { s with slots := s.slots.set i slot } = s.responses.set i slot.response? :=
  List.map_set

end

/-- What is written is the first of the answers. While the writer runs,
it and the channel and the loop hold the numbers of the others, in
order. -/
structure InOrder (s : ClientConn) : Prop where
  written : s.written.map some <+: s.responses
  queued : s.writer.finished = false → s.writer.slots ++ s.queue ++ s.reader.slots =
    List.range' s.written.length (s.slots.length - s.written.length)
  resolved : ∀ slot resp, s.writer = .writing slot resp → s.responses[slot]? = some (some resp)

namespace InOrder

variable {token : Option Bytes} {s s' : ClientConn} {e : ConnEvent}

theorem written_le (h : s.InOrder) : s.written.length ≤ s.slots.length := by
  have hle := h.written.length_le
  rwa [List.length_map, responses, List.length_map] at hle

theorem openSlot (h : s.InOrder) (hr : s.reader.slots = []) (slot : Slot)
    (authed ifSent ifFailed : Bool) :
    ({ s with authed := authed }.openSlot slot ifSent ifFailed).InOrder := by
  have hle := h.written_le
  refine ⟨?_, fun hw => ?_, fun i resp hw => ?_⟩
  · rw [responses_openSlot]
    exact h.written.trans (List.prefix_append _ _)
  · have hq := h.queued hw
    rw [hr, List.append_nil] at hq
    have hsub : s.slots.length + 1 - s.written.length =
        (s.slots.length - s.written.length) + 1 := by omega
    have hlast : s.written.length + (s.slots.length - s.written.length) = s.slots.length := by
      omega
    simp only [ClientConn.openSlot, Reader.slots, List.length_append, List.length_singleton, hsub,
      List.range'_1_concat, hlast, ← hq]
  · have hi := h.resolved i resp hw
    rw [responses_openSlot, List.getElem?_append_left (List.getElem?_eq_some_iff.mp hi).1]
    exact hi

/-- A pending answer that ends leaves the written ones as they are. -/
theorem finish (h : s.InOrder) {i : Nat} {f : ClientFrame}
    (hi : s.slots[i]? = some ⟨f, true, .pending⟩) (answer : Oneshot) :
    InOrder { s with slots := s.slots.set i ⟨f, true, answer⟩ } := by
  have hnone := responses_pending hi
  refine ⟨?_, fun hw => ?_, fun j resp hw => ?_⟩
  · rw [responses_set]
    exact prefix_set_of_none h.written hnone _
  · have hq := h.queued hw
    simpa only [List.length_set] using hq
  · have hj := h.resolved j resp hw
    have hne : i ≠ j := by
      rintro rfl
      rw [hnone] at hj
      cases hj
    rw [responses_set, List.getElem?_set_ne hne]
    exact hj

/-- A writer that is over holds nothing back any more. -/
theorem stop (h : s.InOrder) {w : Writer} (hw : w.finished = true) :
    InOrder { s with writer := w } where
  written := h.written
  queued := fun hrunning => by
    change w.finished = false at hrunning
    rw [hw] at hrunning
    cases hrunning
  resolved := fun slot resp hwriting => by
    change w = _ at hwriting
    rw [hwriting] at hw
    cases hw

theorem moveReader (h : s.InOrder) {r : Reader} (hr : r.slots = s.reader.slots) :
    InOrder { s with reader := r } where
  written := h.written
  queued := fun hrunning => by
    rw [← h.queued hrunning, ← hr]
  resolved := h.resolved

theorem step (h : s.InOrder) (hstep : s.step token e = some s') : s'.InOrder := by
  cases step_cases hstep with
  | frame hr hf =>
      obtain ⟨sub, -, rfl⟩ | ⟨spawned, answer, authed, ifSent, ifFailed, rfl, -⟩ := hf.opened
      · exact h.moveReader (by rw [hr]; rfl)
      · exact h.openSlot (by rw [hr]; rfl) _ _ _ _
  | readFailed hr => exact h.moveReader (by rw [hr]; rfl)
  | @sent slot ifSent ifFailed hr _ =>
      refine ⟨h.written, fun hw => ?_, h.resolved⟩
      have hnext : (Reader.next ifSent).slots = [] := by cases ifSent <;> rfl
      change s.writer.slots ++ (s.queue ++ [slot]) ++ (Reader.next ifSent).slots = _
      rw [← h.queued hw, hr, hnext, List.append_nil, ← List.append_assoc]
      rfl
  | sendFailed hr hw =>
      refine ⟨h.written, fun hw' => ?_, h.resolved⟩
      change s.writer.finished = false at hw'
      rw [hw] at hw'
      cases hw'
  | answered hslot => exact h.finish hslot _
  | dropped hslot => exact h.finish hslot _
  | received hw hq =>
      have hqueued := h.queued (by rw [hw]; rfl)
      rw [hw, hq] at hqueued
      exact ⟨h.written, fun _ => hqueued, fun _ _ hw' => by cases hw'⟩
  | drained hw hq hr => exact h.stop rfl
  | @resolved slot resp hw hslot =>
      have hqueued := h.queued (by rw [hw]; rfl)
      rw [hw] at hqueued
      refine ⟨h.written, fun _ => hqueued, fun i resp' hw' => ?_⟩
      cases hw'
      obtain ⟨sl, hsl, hanswer⟩ := Option.map_eq_some_iff.mp hslot
      change (s.slots.map Slot.response?)[slot]? = _
      rw [List.getElem?_map, hsl, Option.map_some, Slot.response?, hanswer]
  | lost hw hslot => exact h.stop rfl
  | @wrote slot resp hw =>
      have hqueued := h.queued (by rw [hw]; rfl)
      rw [hw] at hqueued
      obtain ⟨rfl, hpos, hrest⟩ := List.range'_eq_cons_iff.mp hqueued.symm
      have hslot := h.resolved _ resp hw
      refine ⟨?_, fun _ => ?_, fun _ _ hw' => by cases hw'⟩
      · change (s.written ++ [resp]).map some <+: s.responses
        rw [List.map_append]
        exact prefix_concat_of_getElem? h.written (by rw [List.length_map]; exact hslot)
      · change [] ++ s.queue ++ s.reader.slots = List.range' (s.written ++ [resp]).length
          (s.slots.length - (s.written ++ [resp]).length)
        rw [List.nil_append, List.length_append, List.length_singleton, Nat.sub_add_eq]
        exact hrest
  | writeFailed hw => exact h.stop rfl
  | writerPanicked hw => exact h.stop rfl
  | subscribed hr hw => exact h.moveReader (by rw [hr]; rfl)
  | closed hr => exact h.moveReader (by rw [hr]; rfl)
  | pushed hr => exact ⟨h.written, h.queued, h.resolved⟩

end InOrder

/-! ## One answer for each frame -/

/-- The frames so far, in the order they came. -/
def frames (s : ClientConn) : List ClientFrame := s.slots.map Slot.frame ++ s.reader.subFrame

end ClientConn

def ConnEvent.frame? : ConnEvent → Option ClientFrame
  | .frame f => some f
  | _ => none

/-- The frames that arrive in a run. -/
def arrived (events : List ConnEvent) : List ClientFrame := events.filterMap ConnEvent.frame?

namespace ClientConn

section

variable {token : Option Bytes} {s s' : ClientConn} {e : ConnEvent} {events : List ConnEvent}

theorem frames_finish {i : Nat} {f : ClientFrame} (hi : s.slots[i]? = some ⟨f, true, .pending⟩)
    (answer : Oneshot) : frames { s with slots := s.slots.set i ⟨f, true, answer⟩ } = s.frames := by
  have hf : (s.slots.map Slot.frame)[i]? = some f := by
    rw [List.getElem?_map, hi]
    rfl
  obtain ⟨hlt, hget⟩ := List.getElem?_eq_some_iff.mp hf
  have hset : (s.slots.map Slot.frame).set i f = s.slots.map Slot.frame := by
    rw [← hget, List.set_getElem_self]
  rw [frames, frames, List.map_set, hset]

theorem frames_frame {f : ClientFrame} (hr : s.reader = .reading) (hf : FrameStep token s f s') :
    s'.frames = s.frames ++ [f] := by
  obtain ⟨sub, rfl, rfl⟩ | ⟨spawned, answer, authed, ifSent, ifFailed, rfl, -⟩ := hf.opened
  · rw [frames, frames, hr]
    simp only [Reader.subFrame, List.append_nil]
  · rw [frames, frames, hr]
    simp only [openSlot, Reader.subFrame, List.map_append, List.map_cons, List.map_nil,
      List.append_nil]

theorem frames_step (hstep : s.step token e = some s') :
    s'.frames = s.frames ++ e.frame?.toList := by
  have hmove : ∀ r : Reader, r.subFrame = s.reader.subFrame →
      frames { s with reader := r } = s.frames := fun r hr => by rw [frames, frames, hr]
  cases step_cases hstep with
  | frame hr hf => exact frames_frame hr hf
  | answered hslot => exact (frames_finish hslot _).trans (List.append_nil _).symm
  | dropped hslot => exact (frames_finish hslot _).trans (List.append_nil _).symm
  | readFailed hr => exact (hmove _ (by rw [hr]; rfl)).trans (List.append_nil _).symm
  | @sent slot ifSent ifFailed hr hw =>
      have hnext : (Reader.next ifSent).subFrame = s.reader.subFrame := by
        rw [hr]
        cases ifSent <;> rfl
      exact (hmove _ hnext).trans (List.append_nil _).symm
  | @sendFailed slot ifSent ifFailed hr hw =>
      have hnext : (Reader.next ifFailed).subFrame = s.reader.subFrame := by
        rw [hr]
        cases ifFailed <;> rfl
      exact (hmove _ hnext).trans (List.append_nil _).symm
  | subscribed hr hw => exact (hmove _ (by rw [hr]; rfl)).trans (List.append_nil _).symm
  | @closed sub hr =>
      have hsub : (Reader.closed sub).subFrame = s.reader.subFrame := by
        rw [hr]
        cases sub <;> rfl
      exact (hmove _ hsub).trans (List.append_nil _).symm
  | _ => exact (List.append_nil _).symm

theorem run_frames (hrun : Machine.run (step token) s events = some s') :
    s'.frames = s.frames ++ arrived events :=
  Machine.run_history (fun _ _ _ hstep => frames_step hstep) hrun

/-- An answer does not change any more. -/
theorem responses_step {i : Nat} {resp : Response} (h : s.responses[i]? = some (some resp))
    (hstep : s.step token e = some s') : s'.responses[i]? = some (some resp) := by
  have hset : ∀ (j : Nat) (slot : Slot), s.responses[j]? = some none →
      (s.responses.set j slot.response?)[i]? = some (some resp) := by
    intro j slot hj
    have hne : j ≠ i := by
      rintro rfl
      rw [hj] at h
      cases h
    rw [List.getElem?_set_ne hne]
    exact h
  cases step_cases hstep with
  | frame hr hf =>
      obtain ⟨sub, -, rfl⟩ | ⟨spawned, answer, authed, ifSent, ifFailed, rfl, -⟩ := hf.opened
      · exact h
      · rw [responses_openSlot, List.getElem?_append_left (List.getElem?_eq_some_iff.mp h).1]
        exact h
  | answered hslot =>
      rw [responses_set]
      exact hset _ _ (responses_pending hslot)
  | dropped hslot =>
      rw [responses_set]
      exact hset _ _ (responses_pending hslot)
  | _ => exact h

theorem responses_answer {i : Nat} {resp : Response}
    (hstep : s.step token (.answer i resp) = some s') :
    s'.responses[i]? = some (some resp) := by
  obtain ⟨f, hslot, rfl⟩ := finish_eq_some hstep
  rw [responses_set,
    List.getElem?_set_self (List.getElem?_eq_some_iff.mp (responses_pending hslot)).1]
  rfl

/-- What a request's task answered is the answer of its frame. -/
theorem run_answers (hrun : Machine.run (step token) s events = some s') {i : Nat}
    {resp : Response} (h : s.responses[i]? = some (some resp) ∨ .answer i resp ∈ events) :
    s'.responses[i]? = some (some resp) := by
  induction events generalizing s with
  | nil =>
      cases hrun
      exact h.resolve_right List.not_mem_nil
  | cons e rest ih =>
      obtain ⟨s₁, hstep, hrest⟩ := Machine.run_cons_eq_some.mp hrun
      rcases h with hs | he
      · exact ih hrest (.inl (responses_step hs hstep))
      · rcases List.mem_cons.mp he with rfl | hmem
        · exact ih hrest (.inl (responses_answer hstep))
        · exact ih hrest (.inr hmem)

/-- Bytes that are no request are answered so on the spot. -/
def BadRequests (s : ClientConn) : Prop :=
  ∀ slot ∈ s.slots, ∀ error, slot.frame = .error error →
    slot.answer = .sent (respError "bad_request" error)

theorem BadRequests.openSlot (h : s.BadRequests) {slot : Slot} (authed ifSent ifFailed : Bool)
    (hslot : ∀ error, slot.frame = .error error →
      slot.answer = .sent (respError "bad_request" error)) :
    ({ s with authed := authed }.openSlot slot ifSent ifFailed).BadRequests := by
  intro slot' hmem
  rcases List.mem_append.mp hmem with hold | hnew
  · exact h slot' hold
  · rw [List.mem_singleton.mp hnew]
    exact hslot

theorem BadRequests.finish (h : s.BadRequests) {i : Nat} {f : ClientFrame}
    (hi : s.slots[i]? = some ⟨f, true, .pending⟩) (answer : Oneshot) :
    BadRequests { s with slots := s.slots.set i ⟨f, true, answer⟩ } := by
  intro slot hmem error hframe
  rcases List.mem_or_eq_of_mem_set hmem with hold | rfl
  · exact h slot hold error hframe
  · have hpending := h _ (List.mem_of_getElem? hi) error hframe
    cases hpending

theorem BadRequests.step (h : s.BadRequests) (hstep : s.step token e = some s') :
    s'.BadRequests := by
  cases step_cases hstep with
  | frame hr hf =>
      cases hf with
      | badRequest => exact h.openSlot s.authed _ _ fun error herror => by cases herror; rfl
      | admitted => exact h.openSlot true _ _ fun error herror => by cases herror
      | refused => exact h.openSlot s.authed _ _ fun error herror => by cases herror
      | spawned => exact h.openSlot s.authed _ _ fun error herror => by cases herror
      | subscribed => exact h
  | answered hslot => exact h.finish hslot _
  | dropped hslot => exact h.finish hslot _
  | _ => exact h

end

end ClientConn

/-! ## The subscription comes last -/

/-- Every handler answers and no write fails: no request's task ends
without an answer, and the writer does not stop early. -/
def ConnEvent.Clean : ConnEvent → Prop
  | .drop _ | .writeFailed | .writerPanicked => False
  | _ => True

namespace ClientConn

section

variable {token : Option Bytes} {s s' : ClientConn} {e : ConnEvent} {events : List ConnEvent}

/-- A subscription writes only once it has the stream's write half. -/
structure HandedOver (s : ClientConn) : Prop where
  returned : ∀ sub, s.reader = .subscribed sub → s.writer = .returned
  pushed : s.pushed ≠ [] → ∃ sub, s.reader = .subscribed sub

/-- In a clean run the writer returns the write half when the loop is
over and everything is written. -/
structure Drained (s : ClientConn) : Prop where
  answered : ∀ slot ∈ s.slots, slot.answer ≠ .dropped
  running : s.writer ≠ .panicked
  returned : s.writer = .returned → s.reader.finished = true ∧ s.written.length = s.slots.length

/-- Before the hand-over there is no subscription, and nothing of it. -/
theorem HandedOver.before (h : s.HandedOver) (hs : ∀ sub, s.reader ≠ .subscribed sub)
    (hpushed : s'.pushed = s.pushed) (hs' : ∀ sub, s'.reader ≠ .subscribed sub) :
    s'.HandedOver where
  returned := fun sub hr => absurd hr (hs' sub)
  pushed := fun hne => by
    obtain ⟨sub, hr⟩ := h.pushed (hpushed ▸ hne)
    exact absurd hr (hs sub)

/-- A step of a writer that still runs is before the hand-over. -/
theorem HandedOver.moveWriter (h : s.HandedOver) {w : Writer} (hw : s.writer = w)
    (hne : w ≠ .returned) (hpushed : s'.pushed = s.pushed) (hr : s'.reader = s.reader) :
    s'.HandedOver := by
  have hs : ∀ sub, s.reader ≠ .subscribed sub := by
    intro sub hsub
    exact hne (hw ▸ h.returned sub hsub)
  exact h.before hs hpushed (hr ▸ hs)

theorem HandedOver.step (h : s.HandedOver) (hstep : s.step token e = some s') :
    s'.HandedOver := by
  cases step_cases hstep with
  | frame hr hf =>
      obtain ⟨sub, -, rfl⟩ | ⟨spawned, answer, authed, ifSent, ifFailed, rfl, -⟩ := hf.opened
      · exact h.before (fun _ h => by rw [hr] at h; cases h) rfl fun _ h => by cases h
      · exact h.before (fun _ h => by rw [hr] at h; cases h) rfl fun _ h => by cases h
  | readFailed hr =>
      exact h.before (fun _ h => by rw [hr] at h; cases h) rfl fun _ h => by cases h
  | @sent slot ifSent ifFailed hr hw =>
      refine h.before (fun _ h => by rw [hr] at h; cases h) rfl fun sub hr' => ?_
      cases ifSent <;> cases hr'
  | @sendFailed slot ifSent ifFailed hr hw =>
      refine h.before (fun _ h => by rw [hr] at h; cases h) rfl fun sub hr' => ?_
      cases ifFailed <;> cases hr'
  | answered hslot => exact ⟨h.returned, h.pushed⟩
  | dropped hslot => exact ⟨h.returned, h.pushed⟩
  | received hw hq => exact h.moveWriter hw (fun h => by cases h) rfl rfl
  | drained hw hq hr => exact h.moveWriter hw (fun h => by cases h) rfl rfl
  | resolved hw hslot => exact h.moveWriter hw (fun h => by cases h) rfl rfl
  | lost hw hslot => exact h.moveWriter hw (fun h => by cases h) rfl rfl
  | wrote hw => exact h.moveWriter hw (fun h => by cases h) rfl rfl
  | writeFailed hw => exact h.moveWriter hw (fun h => by cases h) rfl rfl
  | writerPanicked hw => exact h.moveWriter rfl (fun h => by rw [h] at hw; cases hw) rfl rfl
  | @subscribed sub hr hw => exact ⟨fun _ _ => hw, fun _ => ⟨sub, rfl⟩⟩
  | closed hr => exact h.before (fun _ h => by rw [hr] at h; cases h) rfl fun _ h => by cases h
  | @pushed sub resp hr => exact ⟨h.returned, fun _ => ⟨sub, hr⟩⟩

/-- While the loop runs the writer has not returned. -/
theorem Drained.not_returned (h : s.Drained) (hr : s.reader.finished = false) :
    s.writer ≠ .returned := by
  intro hw
  rw [(h.returned hw).1] at hr
  cases hr

theorem Drained.step (h : s.Drained) (horder : s.InOrder) (hclean : e.Clean)
    (hstep : s.step token e = some s') : s'.Drained := by
  cases step_cases hstep with
  | frame hr hf =>
      have hw := h.not_returned (by rw [hr]; rfl)
      obtain ⟨sub, -, rfl⟩ | ⟨spawned, answer, authed, ifSent, ifFailed, rfl, hanswer⟩ := hf.opened
      · exact ⟨h.answered, h.running, fun h => absurd h hw⟩
      · refine ⟨fun slot hmem => ?_, h.running, fun h => absurd h hw⟩
        rcases List.mem_append.mp hmem with hold | hnew
        · exact h.answered slot hold
        · rw [List.mem_singleton.mp hnew]
          exact hanswer
  | readFailed hr =>
      have hw := h.not_returned (by rw [hr]; rfl)
      exact ⟨h.answered, h.running, fun h => absurd h hw⟩
  | sent hr _ =>
      have hw := h.not_returned (by rw [hr]; rfl)
      exact ⟨h.answered, h.running, fun h => absurd h hw⟩
  | sendFailed hr _ =>
      have hw := h.not_returned (by rw [hr]; rfl)
      exact ⟨h.answered, h.running, fun h => absurd h hw⟩
  | answered hslot =>
      refine ⟨fun slot hmem => ?_, h.running, fun hw => ?_⟩
      · rcases List.mem_or_eq_of_mem_set hmem with hold | rfl
        · exact h.answered slot hold
        · exact fun h => by cases h
      · rw [List.length_set]
        exact h.returned hw
  | dropped _ => exact hclean.elim
  | received hw hq => exact ⟨h.answered, (fun h => by cases h), fun h => by cases h⟩
  | drained hw hq hr =>
      refine ⟨h.answered, (fun h => by cases h), fun _ => ⟨hr, ?_⟩⟩
      have hslots : s.reader.slots = [] := by
        cases hreader : s.reader with
        | sending slot ifSent ifFailed => rw [hreader] at hr; cases hr
        | _ => rfl
      have hqueued := horder.queued (by rw [hw]; rfl)
      rw [hw, hq, hslots] at hqueued
      have hnone := List.range'_eq_nil_iff.mp hqueued.symm
      exact Nat.le_antisymm horder.written_le (Nat.sub_eq_zero_iff_le.mp hnone)
  | resolved hw hslot => exact ⟨h.answered, (fun h => by cases h), fun h => by cases h⟩
  | lost hw hslot =>
      obtain ⟨slot, hslot, hanswer⟩ := Option.map_eq_some_iff.mp hslot
      exact absurd hanswer (h.answered slot (List.mem_of_getElem? hslot))
  | wrote hw => exact ⟨h.answered, (fun h => by cases h), fun h => by cases h⟩
  | writeFailed hw => exact hclean.elim
  | writerPanicked hw => exact hclean.elim
  | subscribed hr hw => exact ⟨h.answered, h.running, fun _ => ⟨rfl, (h.returned hw).2⟩⟩
  | closed hr => exact ⟨h.answered, h.running, fun hw => ⟨rfl, (h.returned hw).2⟩⟩
  | pushed hr => exact ⟨h.answered, h.running, h.returned⟩

end

end ClientConn

namespace ClientConn

section

variable {token : Option Bytes} {s : ClientConn} {events : List ConnEvent}

theorem InOrder.start : (start token).InOrder where
  written := List.nil_prefix
  queued := fun _ => rfl
  resolved := fun _ _ hw => by cases hw

theorem run_inOrder (hrun : run token events = some s) : s.InOrder :=
  Machine.run_keeps (fun _ _ _ h hstep => h.step hstep) .start hrun

theorem run_badRequests (hrun : run token events = some s) : s.BadRequests :=
  have hstart : (start token).BadRequests := fun _ hslot => absurd hslot List.not_mem_nil
  Machine.run_keeps (fun _ _ _ h hstep => h.step hstep) hstart hrun

theorem run_handedOver (hrun : run token events = some s) : s.HandedOver :=
  have hstart : (start token).HandedOver := ⟨(fun _ hr => by cases hr), fun hne => absurd rfl hne⟩
  Machine.run_keeps (fun _ _ _ h hstep => h.step hstep) hstart hrun

theorem run_drained (hclean : ∀ e ∈ events, e.Clean) (hrun : run token events = some s) :
    s.Drained := by
  have hstart : (start token).Drained := {
    answered := fun _ hslot => absurd hslot List.not_mem_nil
    running := fun h => by cases h
    returned := fun h => by cases h }
  refine (Machine.run_invariant (P := fun s => s.InOrder ∧ s.Drained) (Q := fun _ e _ => e.Clean)
    (fun _ _ _ h hstep hclean => ?_) ⟨.start, hstart⟩
    (Machine.along_of_forall fun _ e _ he _ => hclean e he) hrun).2
  exact ⟨h.1.step hstep, h.2.step h.1 hclean hstep⟩

end

end ClientConn

open ClientConn in
/-- In every run, under every order in which the requests' tasks answer
or fail to, what is written is the first of the answers, which stand in
the order of the frames, one for each. An answer is what the frame's task
gave, and `bad_request` for bytes that are no request. If every task
answers and no write fails, a subscription writes only after all of
them. -/
theorem responses_in_order (token : Option Bytes) (events : List ConnEvent) (s : ClientConn)
    (hrun : ClientConn.run token events = some s) :
    s.written.map some <+: s.responses ∧
    arrived events = s.slots.map Slot.frame ++ s.reader.subFrame ∧
    (∀ slot ∈ s.slots, ∀ error, slot.frame = .error error →
      slot.response? = some (respError "bad_request" error)) ∧
    (∀ i resp, .answer i resp ∈ events → s.responses[i]? = some (some resp)) ∧
    ((∀ e ∈ events, e.Clean) → s.pushed ≠ [] → s.written.map some = s.responses) := by
  have horder := run_inOrder hrun
  refine ⟨horder.written, ?_, fun slot hslot error hframe => ?_, fun i resp hmem => ?_,
    fun hclean hpushed => ?_⟩
  · exact (run_frames hrun).symm
  · have hanswer := run_badRequests hrun slot hslot error hframe
    rw [Slot.response?, hanswer]
  · exact run_answers hrun (.inr hmem)
  · obtain ⟨hreturned, hpush⟩ := run_handedOver hrun
    obtain ⟨sub, hsub⟩ := hpush hpushed
    have hlength := ((run_drained hclean hrun).returned (hreturned sub hsub)).2
    refine horder.written.eq_of_length ?_
    rw [List.length_map, responses, List.length_map, hlength]

/-- Two requests and a frame that is none, answered back to front, and
then a subscription. -/
def pipelined : List ConnEvent :=
  [.frame (.ok ⟨some .stats⟩), .send, .frame (.error "eof"), .send,
    .frame (.ok ⟨some (.createTopic "t")⟩), .send, .recv, .answer 2 .ok, .answer 0 (.produced 7),
    .resolve, .frame (.ok ⟨some (.subscribe ⟨"t", "g", 1, 0, ""⟩)⟩), .wrote, .recv, .resolve, .wrote,
    .recv, .resolve, .wrote, .recv, .joined, .push (.polled [])]

theorem responses_in_order_pipelined :
    ∃ s, ClientConn.run none pipelined = some s ∧
      s.written = [.produced 7, respError "bad_request" "eof", .ok] ∧
      s.pushed = [.polled []] ∧ s.written.map some = s.responses := by
  refine ⟨_, rfl, rfl, rfl, ?_⟩
  have hclean : ∀ e ∈ pipelined, e.Clean := by simp [pipelined, ConnEvent.Clean]
  exact (responses_in_order none pipelined _ rfl).2.2.2.2 hclean (by simp)

end HermesMq
