import HermesMq.Frame
import HermesMq.PeerProtocol

/-!
# A connection to a peer

`PeerConnection` keeps one stream open from call to call. There are no
request ids: an answer belongs to the request before it, so an answer that
is left in the stream would be taken for the next request's. A call
therefore takes the stream out of the connection, and puts it back only
when it has read its own answer; if it fails, or is dropped at any await,
the stream is gone with it.

The two sides are joined by two byte streams. An event moves one byte, so
reads and writes of any size are runs of events. Each connection that was
ever opened goes on being served, also when the client has dropped it.

Whenever a stream is there to be used again, everything that was asked on
it has been answered and read, and every answer a call returns is the one
`handle_conn` gave to its own request (`answers_match_requests`).
-/

namespace HermesMq

/-! ## The two sides and the streams -/

/-- A stream and the task that serves it. The server has `inbox` of the
frame it reads, and `outbox` left to write of its answer. -/
structure Conn where
  server : HandleConn
  inbox : Bytes := []
  outbox : Bytes := []
  toServer : Bytes := []
  toClient : Bytes := []
  -- what happened so far: the requests the client began to write, and its bytes
  requests : List PeerRequest := []
  sent : Bytes := []
  received : Bytes := []

/-- What an exchange of frames is for: the request of the call, or the
token, before it. -/
inductive Exchange where
  | rpc (req : PeerRequest)
  | token (auth req : PeerRequest)

/-- The request whose frame is written. -/
def Exchange.asks : Exchange → PeerRequest
  | .rpc req => req
  | .token auth _ => auth

/-- Where `call` is. In an exchange `rest` is left to write, and `buf` has
arrived of the answer; `slot` is the number of the request on its stream. -/
inductive Call where
  | idle
  | connecting (req : PeerRequest)
  | exchange (conn slot : Nat) (x : Exchange) (rest buf : Bytes)

/-- A call that returned `Ok`: the request it was given and wrote, where
it wrote it, and the response. -/
structure Returned where
  conn : Nat
  slot : Nat
  req : PeerRequest
  resp : PeerResponse
deriving DecidableEq

/-- A `PeerConnection`, with every stream it ever opened. -/
structure PeerLink where
  stream : Option Nat := none
  call : Call := .idle
  conns : List Conn := []
  returned : List Returned := []

inductive LinkEvent where
  /-- `call`, with the peer blocked or not. -/
  | call (req : PeerRequest) (blocked : Bool)
  /-- The connection is made; the peer may have refused to serve it. -/
  | connected (accepted : Bool)
  /-- The call writes a byte. -/
  | send
  /-- The call reads a byte. -/
  | recv
  /-- The call fails, or its future is dropped. -/
  | fail
  /-- The server of a stream reads a byte. -/
  | serverRecv (conn : Nat)
  /-- The consensus layer answers. -/
  | serverRaft (conn : Nat) (resp : PeerResponse)
  /-- The server writes a byte. -/
  | serverSend (conn : Nat)
  /-- The server has written its answer. -/
  | serverWrote (conn : Nat)
  | serverFail (conn : Nat)

section

-- `postcard` at the two message types, the client's token and the server's
variable (reqs : StreamCodec PeerRequest) (resps : StreamCodec PeerResponse)
  (token : Option String) (expected : Option Bytes)

/-- The frame of a value, empty if it cannot be encoded. -/
def frameOf {α : Type} (c : StreamCodec α) (a : α) : Bytes := (c.enc a).elim [] writeFrame

namespace Conn

/-- A new stream; the peer may have refused to serve it. -/
def accept (accepted : Bool) : Conn :=
  let server := HandleConn.start expected
  { server := if accepted then server else { server with phase := .closed } }

def serverFail (c : Conn) : Conn := { c with server := { c.server with phase := .closed } }

/-- The server turns to its answer, if it has one. -/
def answer (c : Conn) : Conn :=
  match c.server.phase with
  | .writing resp _ =>
      match resps.enc resp with
      | some bytes => { c with outbox := writeFrame bytes }
      | none => c.serverFail
  | _ => c

/-- The server reads a byte. -/
def serverRecv (c : Conn) : Option Conn :=
  match c.server.phase, c.toServer with
  | .reading, b :: rest =>
      match readFrame maxPeerFrame (c.inbox ++ [b]) with
      | .more => some { c with inbox := c.inbox ++ [b], toServer := rest }
      | .tooLong => some { c with toServer := rest }.serverFail
      | .done body =>
          some (answer resps { c with
            server := c.server.onFrame expected (reqs.dec body)
            inbox := []
            toServer := rest })
  | _, _ => none

def serverRaft (c : Conn) (resp : PeerResponse) : Option Conn :=
  (c.server.onRaft resp).map fun server => answer resps { c with server }

def serverSend (c : Conn) : Option Conn :=
  match c.server.phase, c.outbox with
  | .writing _ _, b :: rest => some { c with outbox := rest, toClient := c.toClient ++ [b] }
  | _, _ => none

def serverWrote (c : Conn) : Option Conn :=
  match c.outbox with
  | [] => c.server.onWrote.map fun server => { c with server }
  | _ => none

/-- The client begins to write a request. -/
def ask (c : Conn) (req : PeerRequest) : Conn := { c with requests := c.requests ++ [req] }

/-- The client writes a byte. -/
def clientSend (c : Conn) (b : UInt8) : Conn :=
  { c with toServer := c.toServer ++ [b], sent := c.sent ++ [b] }

/-- The client reads a byte; `rest` stays in the stream. -/
def clientRecv (c : Conn) (b : UInt8) (rest : Bytes) : Conn :=
  { c with toClient := rest, received := c.received ++ [b] }

end Conn

namespace PeerLink

/-- Change a connection. -/
def update (s : PeerLink) (i : Nat) (f : Conn → Option Conn) : Option PeerLink :=
  match s.conns[i]? with
  | some c => (f c).map fun c => { s with conns := s.conns.set i c }
  | none => none

/-- Begin to write a request; a request that cannot be encoded fails the
call. -/
def ask (s : PeerLink) (i : Nat) (x : Exchange) : Option PeerLink :=
  match s.conns[i]?, reqs.enc x.asks with
  | some c, some bytes =>
      some { s with
        call := .exchange i c.requests.length x (writeFrame bytes) []
        conns := s.conns.set i (c.ask x.asks) }
  | _, _ => some { s with call := .idle }

/-- The answer of an exchange has arrived. -/
def answered (s : PeerLink) (i slot : Nat) (x : Exchange) (body : Bytes) : Option PeerLink :=
  match x, resps.dec body with
  | .rpc req, some resp =>
      some { s with
        stream := some i
        call := .idle
        returned := s.returned ++ [⟨i, slot, req, resp⟩] }
  | .token _ req, some (.auth true) => s.ask reqs i (.rpc req)
  | _, _ => some { s with call := .idle }

def recv (s : PeerLink) : Option PeerLink :=
  match s.call with
  | .exchange i slot x [] buf =>
      match s.conns[i]? with
      | some c =>
          match c.toClient with
          | b :: rest =>
              let s := { s with conns := s.conns.set i (c.clientRecv b rest) }
              match readFrame maxPeerFrame (buf ++ [b]) with
              | .more => some { s with call := .exchange i slot x [] (buf ++ [b]) }
              | .tooLong => some { s with call := .idle }
              | .done body => s.answered reqs resps i slot x body
          | [] => none
      | none => none
  | _ => none

def send (s : PeerLink) : Option PeerLink :=
  match s.call with
  | .exchange i slot x (b :: rest) buf =>
      match s.conns[i]? with
      | some c =>
          some { s with
            call := .exchange i slot x rest buf
            conns := s.conns.set i (c.clientSend b) }
      | none => none
  | _ => none

/-- `call` up to its first await: the request is encoded before the stream
is taken. -/
def begin (s : PeerLink) (req : PeerRequest) (blocked : Bool) : Option PeerLink :=
  match s.call with
  | .idle =>
      if blocked then some { s with stream := none }
      else if (reqs.enc req).isNone then some s
      else
        match s.stream with
        | some i => { s with stream := none }.ask reqs i (.rpc req)
        | none => some { s with call := .connecting req }
  | _ => none

/-- A new stream, on which the token is presented first if there is one. -/
def connected (s : PeerLink) (accepted : Bool) : Option PeerLink :=
  match s.call with
  | .connecting req =>
      let x : Exchange := match token with
        | some token => .token (.auth token) req
        | none => .rpc req
      { s with conns := s.conns ++ [Conn.accept expected accepted] }.ask reqs s.conns.length x
  | _ => none

def step (s : PeerLink) : LinkEvent → Option PeerLink
  | .call req blocked => s.begin reqs req blocked
  | .connected accepted => s.connected reqs token expected accepted
  | .send => s.send
  | .recv => s.recv reqs resps
  | .fail =>
      match s.call with
      | .idle => none
      | _ => some { s with call := .idle }
  | .serverRecv i => s.update i (·.serverRecv reqs resps expected)
  | .serverRaft i resp => s.update i (·.serverRaft resps resp)
  | .serverSend i => s.update i (·.serverSend)
  | .serverWrote i => s.update i (·.serverWrote)
  | .serverFail i => s.update i (some ·.serverFail)

def run (events : List LinkEvent) : Option PeerLink :=
  Machine.run (step reqs resps token expected) {} events

end PeerLink

/-! ## A stream at rest, and during an exchange -/

namespace Conn

/-- The server is done with all it was asked. -/
inductive AtRest (c : Conn) : Prop
  | closed (hp : c.server.phase = .closed)
  | reading (hp : c.server.phase = .reading)
  | written {resp : PeerResponse} {last : Bool} (hp : c.server.phase = .writing resp last)
      (ho : c.outbox = [])

/-- Every request is written, answered and its answer read, and nothing is
under way. -/
structure Quiet (c : Conn) : Prop where
  matched : c.server.answers.map Prod.fst = c.requests
  sent : c.sent = c.requests.flatMap (frameOf reqs)
  received : c.received = c.server.answers.flatMap fun a => frameOf resps a.2
  toServer : c.toServer = []
  toClient : c.toClient = []
  inbox : c.inbox = []
  server : c.AtRest

/-- The server before it answers a request, of which `written` is in its
inbox or on the way. -/
inductive Pending (c : Conn) (req : PeerRequest) (written rest : Bytes) : Prop
  | closed (hp : c.server.phase = .closed)
  | reading (hp : c.server.phase = .reading) (hw : c.inbox ++ c.toServer = written)
  | lastWritten {resp : PeerResponse} {last : Bool} (hp : c.server.phase = .writing resp last)
      (ho : c.outbox = []) (hi : c.inbox = []) (hw : c.toServer = written)
  | serving (hp : c.server.phase = .serving req) (hi : c.inbox = []) (hw : c.toServer = [])
      (hr : rest = [])

/-- A request that is not answered yet: `rest` is left to write. -/
structure Asked (c : Conn) (req : PeerRequest) (rest : Bytes) (before : List PeerRequest)
    (written : Bytes) : Prop where
  requests : c.requests = before ++ [req]
  frame : frameOf reqs req = written ++ rest
  sent : c.sent = before.flatMap (frameOf reqs) ++ written
  matched : c.server.answers.map Prod.fst = before
  received : c.received = c.server.answers.flatMap fun a => frameOf resps a.2
  toClient : c.toClient = []
  server : c.Pending req written rest

/-- The server after it answered; `left` of its answer is not written. -/
inductive Replying (c : Conn) (left : Bytes) : Prop
  | closed (hp : c.server.phase = .closed)
  | reading (hp : c.server.phase = .reading) (hl : left = [])
  | writing {resp : PeerResponse} {last : Bool} (hp : c.server.phase = .writing resp last)
      (ho : c.outbox = left)

/-- A request that is answered; the client has `buf` of the answer. -/
structure Answered (c : Conn) (req : PeerRequest) (buf : Bytes)
    (answers : List (PeerRequest × PeerResponse)) (resp : PeerResponse) (left : Bytes) : Prop where
  requests : c.requests = answers.map Prod.fst ++ [req]
  sent : c.sent = c.requests.flatMap (frameOf reqs)
  matched : c.server.answers = answers ++ [(req, resp)]
  received : c.received = (answers.flatMap fun a => frameOf resps a.2) ++ buf
  toServer : c.toServer = []
  inbox : c.inbox = []
  frame : buf ++ c.toClient ++ left = frameOf resps resp
  server : c.Replying left

/-- The stream during an exchange in which `rest` is left to write of the
request and `buf` has arrived of its answer. -/
inductive Exchanging (c : Conn) (req : PeerRequest) : Bytes → Bytes → Prop
  | asked {rest written : Bytes} {before : List PeerRequest}
      (h : c.Asked reqs resps req rest before written) : Exchanging c req rest []
  | answered {buf left : Bytes} {answers : List (PeerRequest × PeerResponse)}
      {resp : PeerResponse} (h : c.Answered reqs resps req buf answers resp left) :
      Exchanging c req [] buf

end Conn

end

theorem frameOf_eq {α : Type} {c : StreamCodec α} {a : α} {bytes : Bytes}
    (h : c.enc a = some bytes) : frameOf c a = writeFrame bytes := by
  rw [frameOf, h]
  rfl

/-- A frame that arrived in part and reads and decodes has arrived in
full, and decodes to what was written. -/
theorem frameOf_decoded {α : Type} {c : StreamCodec α} {a a' : α} {buf body : Bytes}
    (hbuf : buf <+: frameOf c a) (hread : readFrame maxPeerFrame buf = .done body)
    (hdec : c.dec body = some a') : buf = frameOf c a ∧ a' = a := by
  cases henc : c.enc a with
  | none =>
      rw [frameOf, henc] at hbuf
      rw [List.prefix_nil.mp hbuf] at hread
      cases hread
  | some bytes =>
      rw [frameOf_eq henc] at hbuf ⊢
      obtain ⟨hbody, hsplit⟩ := readFrame_prefix hbuf hread
      obtain ⟨rfl, ha⟩ := c.dec_prefix henc hbody hdec
      exact ⟨hsplit, ha⟩

namespace Conn

variable {reqs : StreamCodec PeerRequest} {resps : StreamCodec PeerResponse}
  {expected : Option Bytes} {c c' : Conn} {req : PeerRequest} {rest buf : Bytes}

/-! ### The client's steps -/

theorem Quiet.accept (accepted : Bool) : (Conn.accept expected accepted).Quiet reqs resps := by
  have hanswers : (Conn.accept expected accepted).server.answers = [] := by
    cases accepted <;> rfl
  refine ⟨?_, rfl, ?_, rfl, rfl, rfl, ?_⟩
  · rw [hanswers]
    rfl
  · rw [hanswers]
    rfl
  · cases accepted with
    | true => exact .reading rfl
    | false => exact .closed rfl

theorem Quiet.ask (h : c.Quiet reqs resps) {bytes : Bytes} (henc : reqs.enc req = some bytes) :
    (c.ask req).Exchanging reqs resps req (writeFrame bytes) [] := by
  have hasked : (c.ask req).Asked reqs resps req (writeFrame bytes) c.requests [] := {
    requests := rfl
    frame := frameOf_eq henc
    sent := h.sent.trans (List.append_nil _).symm
    matched := h.matched
    received := h.received
    toClient := h.toClient
    server := by
      cases h.server with
      | closed hp => exact .closed hp
      | reading hp =>
          refine .reading hp ?_
          change c.inbox ++ c.toServer = []
          rw [h.inbox, h.toServer]
          rfl
      | written hp ho => exact .lastWritten hp ho h.inbox h.toServer }
  exact .asked hasked

theorem Exchanging.clientSend {b : UInt8} (h : c.Exchanging reqs resps req (b :: rest) buf) :
    (c.clientSend b).Exchanging reqs resps req rest buf := by
  cases h with
  | @asked _ written before h =>
      have hasked : (c.clientSend b).Asked reqs resps req rest before (written ++ [b]) := {
        requests := h.requests
        frame := by rw [h.frame, List.append_assoc, List.singleton_append]
        sent := by
          change c.sent ++ [b] = _
          rw [h.sent, List.append_assoc]
        matched := h.matched
        received := h.received
        toClient := h.toClient
        server := by
          cases h.server with
          | closed hp => exact .closed hp
          | reading hp hw =>
              refine .reading hp ?_
              change c.inbox ++ (c.toServer ++ [b]) = _
              rw [← List.append_assoc, hw]
          | lastWritten hp ho hi hw =>
              refine .lastWritten hp ho hi ?_
              change c.toServer ++ [b] = _
              rw [hw]
          | serving _ _ _ hr => cases hr }
      exact .asked hasked

theorem Exchanging.clientRecv {b : UInt8} {later : Bytes}
    (h : c.Exchanging reqs resps req [] buf) (hb : c.toClient = b :: later) :
    (c.clientRecv b later).Exchanging reqs resps req [] (buf ++ [b]) := by
  cases h with
  | asked h =>
      rw [h.toClient] at hb
      cases hb
  | @answered _ left answers resp h =>
      have hanswered :
          (c.clientRecv b later).Answered reqs resps req (buf ++ [b]) answers resp left := {
        requests := h.requests
        sent := h.sent
        matched := h.matched
        received := by
          change c.received ++ [b] = _
          rw [h.received, List.append_assoc]
        toServer := h.toServer
        inbox := h.inbox
        frame := by
          rw [← h.frame, hb]
          change buf ++ [b] ++ later ++ left = _
          rw [List.append_assoc buf, List.singleton_append]
        server := by
          cases h.server with
          | closed hp => exact .closed hp
          | reading hp hl => exact .reading hp hl
          | writing hp ho => exact .writing hp ho }
      exact .answered hanswered

/-- An answer that reads and decodes is the answer to the request, and
leaves the stream at rest. -/
theorem Exchanging.decoded {body : Bytes} {resp : PeerResponse}
    (h : c.Exchanging reqs resps req [] buf) (hread : readFrame maxPeerFrame buf = .done body)
    (hdec : resps.dec body = some resp) :
    c.Quiet reqs resps ∧ ∃ answers : List (PeerRequest × PeerResponse),
      c.requests = answers.map Prod.fst ++ [req] ∧ c.server.answers = answers ++ [(req, resp)] := by
  cases h with
  | asked h => cases hread
  | @answered _ left answers resp' h =>
      have hbuf : buf <+: frameOf resps resp' :=
        ⟨c.toClient ++ left, by rw [← List.append_assoc, h.frame]⟩
      obtain ⟨hfull, rfl⟩ := frameOf_decoded hbuf hread hdec
      have hempty : c.toClient ++ left = [] := by
        have hframe := h.frame
        rw [List.append_assoc, hfull] at hframe
        exact List.append_right_eq_self.mp hframe
      obtain ⟨hclient, rfl⟩ := List.append_eq_nil_iff.mp hempty
      refine ⟨?_, answers, h.requests, h.matched⟩
      exact {
        matched := by rw [h.matched, h.requests, List.map_append]; rfl
        sent := h.sent
        received := by
          rw [h.received, h.matched, List.flatMap_append, hfull]
          exact congrArg _ (List.append_nil _).symm
        toServer := h.toServer
        toClient := hclient
        inbox := h.inbox
        server := by
          cases h.server with
          | closed hp => exact .closed hp
          | reading hp _ => exact .reading hp
          | writing hp ho => exact .written hp ho }

/-! ### The server's steps -/

/-- The server turns to its answer. -/
theorem Answered.of_writing {answers : List (PeerRequest × PeerResponse)} {resp : PeerResponse}
    {last : Bool} (hphase : c.server.phase = .writing resp last)
    (hrequests : c.requests = answers.map Prod.fst ++ [req])
    (hsent : c.sent = c.requests.flatMap (frameOf reqs))
    (hmatched : c.server.answers = answers ++ [(req, resp)])
    (hreceived : c.received = answers.flatMap fun a => frameOf resps a.2)
    (hserver : c.toServer = []) (hinbox : c.inbox = []) (hclient : c.toClient = []) :
    (c.answer resps).Answered reqs resps req [] answers resp (frameOf resps resp) := by
  have hreceived : c.received = (answers.flatMap fun a => frameOf resps a.2) ++ [] :=
    hreceived.trans (List.append_nil _).symm
  cases henc : resps.enc resp with
  | none =>
      have heq : c.answer resps = c.serverFail := by simp only [answer, hphase, henc, serverFail]
      rw [heq]
      refine ⟨hrequests, hsent, hmatched, hreceived, hserver, hinbox, ?_, .closed rfl⟩
      change [] ++ c.toClient ++ _ = _
      rw [hclient]
      rfl
  | some bytes =>
      have heq : c.answer resps = { c with outbox := writeFrame bytes } := by
        simp only [answer, hphase, henc]
      rw [heq]
      refine ⟨hrequests, hsent, hmatched, hreceived, hserver, hinbox, ?_,
        .writing hphase (frameOf_eq henc).symm⟩
      change [] ++ c.toClient ++ _ = _
      rw [hclient]
      rfl

theorem Asked.sent_all {before : List PeerRequest} {written : Bytes}
    (h : c.Asked reqs resps req [] before written) :
    c.sent = c.requests.flatMap (frameOf reqs) := by
  rw [h.sent, h.requests, List.flatMap_append, ← List.append_nil written, ← h.frame]
  exact congrArg _ (List.append_nil _).symm

theorem Asked.requests_eq {before : List PeerRequest} {written : Bytes}
    (h : c.Asked reqs resps req rest before written) :
    c.requests = c.server.answers.map Prod.fst ++ [req] := by
  rw [h.requests, h.matched]

/-- The whole frame of a request has arrived, and is served or answered. -/
theorem Asked.onFrame {before : List PeerRequest} {written : Bytes}
    (h : c.Asked reqs resps req [] before written) :
    (answer resps { c with
      server := c.server.onFrame expected (some req)
      inbox := []
      toServer := [] }).Exchanging reqs resps req [] [] := by
  have hrpc : (answer resps { c with
      server := c.server.onRpc req
      inbox := []
      toServer := [] }).Exchanging reqs resps req [] [] := by
    rw [HandleConn.onRpc]
    by_cases ha : c.server.authed = true
    · rw [if_pos ha]
      exact .asked ⟨h.requests, h.frame, h.sent, h.matched, h.received, h.toClient,
        .serving rfl rfl rfl rfl⟩
    · rw [if_neg ha]
      exact .asked ⟨h.requests, h.frame, h.sent, h.matched, h.received, h.toClient, .closed rfl⟩
  cases req with
  | auth offered =>
      exact .answered (.of_writing rfl h.requests_eq h.sent_all rfl h.received rfl rfl h.toClient)
  | appendEntries r => exact hrpc
  | vote r => exact hrpc
  | installSnapshot r => exact hrpc

end Conn

/-- A step of the server of a stream. -/
inductive ServerMove (reqs : StreamCodec PeerRequest) (resps : StreamCodec PeerResponse)
    (expected : Option Bytes) (c : Conn) : Conn → Prop
  | more {b : UInt8} {later : Bytes} (hp : c.server.phase = .reading)
      (hb : c.toServer = b :: later) :
      ServerMove reqs resps expected c { c with inbox := c.inbox ++ [b], toServer := later }
  | tooLong {b : UInt8} {later : Bytes} (hp : c.server.phase = .reading)
      (hb : c.toServer = b :: later) :
      ServerMove reqs resps expected c { c with toServer := later }.serverFail
  | frame {b : UInt8} {later body : Bytes} (hp : c.server.phase = .reading)
      (hb : c.toServer = b :: later)
      (hread : readFrame maxPeerFrame (c.inbox ++ [b]) = .done body) :
      ServerMove reqs resps expected c (Conn.answer resps { c with
        server := c.server.onFrame expected (reqs.dec body)
        inbox := []
        toServer := later })
  | raft {req : PeerRequest} {resp : PeerResponse} (hp : c.server.phase = .serving req) :
      ServerMove reqs resps expected c (Conn.answer resps { c with
        server := { c.server with
          phase := .writing resp resp.stopped
          answers := c.server.answers ++ [(req, resp)] } })
  | sent {resp : PeerResponse} {last : Bool} {b : UInt8} {later : Bytes}
      (hp : c.server.phase = .writing resp last) (ho : c.outbox = b :: later) :
      ServerMove reqs resps expected c { c with outbox := later, toClient := c.toClient ++ [b] }
  | wrote {resp : PeerResponse} {last : Bool} (hp : c.server.phase = .writing resp last)
      (ho : c.outbox = []) :
      ServerMove reqs resps expected c
        { c with server := { c.server with phase := if last then .closed else .reading } }
  | fail : ServerMove reqs resps expected c c.serverFail

namespace Conn

variable {reqs : StreamCodec PeerRequest} {resps : StreamCodec PeerResponse}
  {expected : Option Bytes} {c c' : Conn} {req : PeerRequest} {rest buf : Bytes}

/-- A server at rest has nothing to answer and nothing to write. -/
theorem AtRest.not_serving (h : c.AtRest) (hp : c.server.phase = .serving req) : False := by
  cases h with
  | closed hc => rw [hc] at hp; cases hp
  | reading hr => rw [hr] at hp; cases hp
  | written hw => rw [hw] at hp; cases hp

theorem AtRest.outbox {resp : PeerResponse} {last : Bool} (h : c.AtRest)
    (hp : c.server.phase = .writing resp last) : c.outbox = [] := by
  cases h with
  | closed hc => rw [hc] at hp; cases hp
  | reading hr => rw [hr] at hp; cases hp
  | written _ ho => exact ho

theorem Quiet.move (h : c.Quiet reqs resps) (hmove : ServerMove reqs resps expected c c') :
    c'.Quiet reqs resps := by
  cases hmove with
  | more hp hb => rw [h.toServer] at hb; cases hb
  | tooLong hp hb => rw [h.toServer] at hb; cases hb
  | frame hp hb => rw [h.toServer] at hb; cases hb
  | raft hp => exact (h.server.not_serving hp).elim
  | sent hp ho => rw [h.server.outbox hp] at ho; cases ho
  | @wrote resp last hp ho =>
      refine ⟨h.matched, h.sent, h.received, h.toServer, h.toClient, h.inbox, ?_⟩
      cases last with
      | true => exact .closed rfl
      | false => exact .reading rfl
  | fail =>
      exact ⟨h.matched, h.sent, h.received, h.toServer, h.toClient, h.inbox, .closed rfl⟩

theorem Pending.of_reading {written : Bytes} (h : c.Pending req written rest)
    (hp : c.server.phase = .reading) : c.inbox ++ c.toServer = written := by
  cases h with
  | closed hc => rw [hc] at hp; cases hp
  | reading _ hw => exact hw
  | lastWritten hw => rw [hw] at hp; cases hp
  | serving hs => rw [hs] at hp; cases hp

theorem Pending.of_serving {written : Bytes} {req' : PeerRequest} (h : c.Pending req written rest)
    (hp : c.server.phase = .serving req') :
    req' = req ∧ c.inbox = [] ∧ c.toServer = [] ∧ rest = [] := by
  cases h with
  | closed hc => rw [hc] at hp; cases hp
  | reading hr => rw [hr] at hp; cases hp
  | lastWritten hw => rw [hw] at hp; cases hp
  | serving hs hi hw hr =>
      rw [hs] at hp
      exact ⟨(ServePhase.serving.inj hp).symm, hi, hw, hr⟩

theorem Pending.of_writing {written : Bytes} {resp : PeerResponse} {last : Bool}
    (h : c.Pending req written rest) (hp : c.server.phase = .writing resp last) :
    c.outbox = [] ∧ c.inbox = [] ∧ c.toServer = written := by
  cases h with
  | closed hc => rw [hc] at hp; cases hp
  | reading hr => rw [hr] at hp; cases hp
  | lastWritten _ ho hi hw => exact ⟨ho, hi, hw⟩
  | serving hs => rw [hs] at hp; cases hp

/-- A whole frame is read: it is the request's, or does not decode. -/
theorem Asked.frameRead {before : List PeerRequest} {written body later : Bytes} {b : UInt8}
    (h : c.Asked reqs resps req rest before written) (hp : c.server.phase = .reading)
    (hb : c.toServer = b :: later)
    (hread : readFrame maxPeerFrame (c.inbox ++ [b]) = .done body) :
    (answer resps { c with
      server := c.server.onFrame expected (reqs.dec body)
      inbox := []
      toServer := later }).Exchanging reqs resps req rest [] := by
  have hframe : c.inbox ++ [b] ++ (later ++ rest) = frameOf reqs req := by
    rw [h.frame, ← h.server.of_reading hp, hb, List.append_assoc, List.append_assoc,
      List.singleton_append, List.cons_append]
  cases hdec : reqs.dec body with
  | none =>
      exact .asked ⟨h.requests, h.frame, h.sent, h.matched, h.received, h.toClient, .closed rfl⟩
  | some req' =>
      obtain ⟨hfull, rfl⟩ := frameOf_decoded ⟨_, hframe⟩ hread hdec
      rw [hfull] at hframe
      obtain ⟨rfl, rfl⟩ := List.append_eq_nil_iff.mp (List.append_right_eq_self.mp hframe)
      exact h.onFrame

theorem Asked.move {before : List PeerRequest} {written : Bytes}
    (h : c.Asked reqs resps req rest before written)
    (hmove : ServerMove reqs resps expected c c') :
    c'.Exchanging reqs resps req rest [] := by
  cases hmove with
  | @more b later hp hb =>
      refine .asked ⟨h.requests, h.frame, h.sent, h.matched, h.received, h.toClient,
        .reading hp ?_⟩
      rw [← h.server.of_reading hp, hb, List.append_assoc]
      rfl
  | tooLong hp hb =>
      exact .asked ⟨h.requests, h.frame, h.sent, h.matched, h.received, h.toClient, .closed rfl⟩
  | frame hp hb hread => exact h.frameRead hp hb hread
  | @raft req' resp hp =>
      obtain ⟨rfl, hinbox, hserver, rfl⟩ := h.server.of_serving hp
      exact .answered (.of_writing rfl h.requests_eq h.sent_all rfl h.received hserver hinbox
        h.toClient)
  | sent hp ho =>
      rw [(h.server.of_writing hp).1] at ho
      cases ho
  | @wrote resp last hp ho =>
      obtain ⟨-, hinbox, hserver⟩ := h.server.of_writing hp
      refine .asked ⟨h.requests, h.frame, h.sent, h.matched, h.received, h.toClient, ?_⟩
      cases last with
      | true => exact .closed rfl
      | false =>
          refine .reading rfl ?_
          change c.inbox ++ c.toServer = written
          rw [hinbox, hserver]
          rfl
  | fail =>
      exact .asked ⟨h.requests, h.frame, h.sent, h.matched, h.received, h.toClient, .closed rfl⟩

theorem Answered.move {answers : List (PeerRequest × PeerResponse)} {resp : PeerResponse}
    {left : Bytes} (h : c.Answered reqs resps req buf answers resp left)
    (hmove : ServerMove reqs resps expected c c') : c'.Exchanging reqs resps req [] buf := by
  cases hmove with
  | more hp hb => rw [h.toServer] at hb; cases hb
  | tooLong hp hb => rw [h.toServer] at hb; cases hb
  | frame hp hb => rw [h.toServer] at hb; cases hb
  | raft hp =>
      cases h.server with
      | closed hc => rw [hc] at hp; cases hp
      | reading hr => rw [hr] at hp; cases hp
      | writing hw => rw [hw] at hp; cases hp
  | @sent resp' last b later hp ho =>
      cases h.server with
      | closed hc => rw [hc] at hp; cases hp
      | reading hr => rw [hr] at hp; cases hp
      | writing _ hleft =>
          refine .answered ⟨h.requests, h.sent, h.matched, h.received, h.toServer, h.inbox, ?_,
            .writing hp rfl⟩
          change buf ++ (c.toClient ++ [b]) ++ later = _
          rw [← h.frame, ← hleft, ho]
          simp only [List.append_assoc, List.singleton_append]
  | @wrote resp' last hp ho =>
      cases h.server with
      | closed hc => rw [hc] at hp; cases hp
      | reading hr => rw [hr] at hp; cases hp
      | writing _ hleft =>
          refine .answered ⟨h.requests, h.sent, h.matched, h.received, h.toServer, h.inbox,
            h.frame, ?_⟩
          cases last with
          | true => exact .closed rfl
          | false => exact .reading rfl (hleft.symm.trans ho)
  | fail =>
      exact .answered ⟨h.requests, h.sent, h.matched, h.received, h.toServer, h.inbox, h.frame,
        .closed rfl⟩

theorem Exchanging.move (h : c.Exchanging reqs resps req rest buf)
    (hmove : ServerMove reqs resps expected c c') : c'.Exchanging reqs resps req rest buf := by
  cases h with
  | asked h => exact h.move hmove
  | answered h => exact h.move hmove

/-! ### Nothing is forgotten -/

/-- The requests and the answers of a stream only become more. -/
structure Grows (c c' : Conn) : Prop where
  requests : c.requests <+: c'.requests
  answers : c.server.answers <+: c'.server.answers

theorem answer_keeps (resps : StreamCodec PeerResponse) (c : Conn) :
    (c.answer resps).requests = c.requests ∧
      (c.answer resps).server.answers = c.server.answers := by
  rw [answer]
  split
  · split <;> exact ⟨rfl, rfl⟩
  · exact ⟨rfl, rfl⟩

end Conn

theorem HandleConn.answers_onFrame (token : Option Bytes) (s : HandleConn)
    (f : Option PeerRequest) : s.answers <+: (s.onFrame token f).answers := by
  have hrpc : ∀ req, (s.onRpc req).answers = s.answers := by
    intro req
    rw [onRpc]
    split <;> rfl
  cases f with
  | none => exact List.prefix_rfl
  | some req =>
      cases req with
      | auth offered => exact List.prefix_append _ _
      | appendEntries r => exact (hrpc _).symm ▸ List.prefix_rfl
      | vote r => exact (hrpc _).symm ▸ List.prefix_rfl
      | installSnapshot r => exact (hrpc _).symm ▸ List.prefix_rfl

namespace ServerMove

variable {reqs : StreamCodec PeerRequest} {resps : StreamCodec PeerResponse}
  {expected : Option Bytes} {c c' : Conn}

theorem requests (h : ServerMove reqs resps expected c c') : c'.requests = c.requests := by
  cases h with
  | frame => exact (Conn.answer_keeps resps _).1
  | raft => exact (Conn.answer_keeps resps _).1
  | _ => rfl

theorem answers (h : ServerMove reqs resps expected c c') :
    c.server.answers <+: c'.server.answers := by
  cases h with
  | frame =>
      rw [(Conn.answer_keeps resps _).2]
      exact HandleConn.answers_onFrame _ _ _
  | raft =>
      rw [(Conn.answer_keeps resps _).2]
      exact List.prefix_append _ _
  | _ => exact List.prefix_rfl

theorem grows (h : ServerMove reqs resps expected c c') : c.Grows c' :=
  ⟨h.requests.symm ▸ List.prefix_rfl, h.answers⟩

theorem of_recv (h : c.serverRecv reqs resps expected = some c') :
    ServerMove reqs resps expected c c' := by
  rw [Conn.serverRecv] at h
  split at h
  · next b later hp hb =>
      split at h
      · exact Option.some.inj h ▸ .more hp hb
      · exact Option.some.inj h ▸ .tooLong hp hb
      · next hread => exact Option.some.inj h ▸ .frame hp hb hread
  · cases h

theorem of_raft {resp : PeerResponse} (h : c.serverRaft resps resp = some c') :
    ServerMove reqs resps expected c c' := by
  obtain ⟨server, hserver, rfl⟩ := Option.map_eq_some_iff.mp h
  rw [HandleConn.onRaft] at hserver
  split at hserver
  · next hp =>
      split at hserver
      · cases hserver
        exact .raft hp
      · cases hserver
  · cases hserver

theorem of_send (h : c.serverSend = some c') : ServerMove reqs resps expected c c' := by
  rw [Conn.serverSend] at h
  split at h
  · next hp ho => exact Option.some.inj h ▸ .sent hp ho
  · cases h

theorem of_wrote (h : c.serverWrote = some c') : ServerMove reqs resps expected c c' := by
  rw [Conn.serverWrote] at h
  split at h
  · next ho =>
      obtain ⟨server, hserver, rfl⟩ := Option.map_eq_some_iff.mp h
      rw [HandleConn.onWrote] at hserver
      split at hserver
      · next hp =>
          cases hserver
          exact .wrote hp ho
      · cases hserver
  · cases h

end ServerMove

/-! ## Calls -/

/-- What a call returned is what its own request was answered. -/
def Returned.Holds (r : Returned) (conns : List Conn) : Prop :=
  ∃ c, conns[r.conn]? = some c ∧ c.requests[r.slot]? = some r.req ∧
    c.server.answers[r.slot]? = some (r.req, r.resp)

theorem getElem?_of_prefix {α : Type} {l m : List α} {i : Nat} {a : α} (h : l <+: m)
    (hi : l[i]? = some a) : m[i]? = some a := by
  obtain ⟨t, rfl⟩ := h
  rw [List.getElem?_append_left (List.getElem?_eq_some_iff.mp hi).1]
  exact hi

theorem Returned.Holds.set {r : Returned} {conns : List Conn} (h : r.Holds conns) {i : Nat}
    {c c' : Conn} (hc : conns[i]? = some c) (hgrows : c.Grows c') : r.Holds (conns.set i c') := by
  obtain ⟨d, hd, hreq, hresp⟩ := h
  by_cases hi : i = r.conn
  · subst hi
    obtain rfl : d = c := Option.some.inj (hd.symm.trans hc)
    refine ⟨c', List.getElem?_set_self (List.getElem?_eq_some_iff.mp hc).1, ?_, ?_⟩
    · exact getElem?_of_prefix hgrows.requests hreq
    · exact getElem?_of_prefix hgrows.answers hresp
  · refine ⟨d, ?_, hreq, hresp⟩
    rw [List.getElem?_set_ne hi]
    exact hd

/-- The stream that is kept is at rest, the stream of a call is in its
exchange, and what calls returned is right. -/
structure LinkOk (reqs : StreamCodec PeerRequest) (resps : StreamCodec PeerResponse)
    (s : PeerLink) : Prop where
  stream : ∀ i, s.stream = some i → s.call = .idle ∧
    ∃ c, s.conns[i]? = some c ∧ c.Quiet reqs resps
  call : ∀ i slot x rest buf, s.call = .exchange i slot x rest buf →
    ∃ c, s.conns[i]? = some c ∧ c.Exchanging reqs resps x.asks rest buf ∧
      c.requests.length = slot + 1
  returned : ∀ r ∈ s.returned, r.Holds s.conns

namespace LinkOk

variable {reqs : StreamCodec PeerRequest} {resps : StreamCodec PeerResponse}
  {token : Option String} {expected : Option Bytes} {s s' : PeerLink}

theorem start : LinkOk reqs resps {} where
  stream := fun _ h => by cases h
  call := fun _ _ _ _ _ h => by cases h
  returned := fun _ h => absurd h List.not_mem_nil

/-- No stream is kept and no exchange under way. -/
theorem of_none {call : Call} (hcall : ∀ i slot x rest buf, call ≠ .exchange i slot x rest buf)
    {conns : List Conn} {returned : List Returned} (h : ∀ r ∈ returned, r.Holds conns) :
    LinkOk reqs resps ⟨none, call, conns, returned⟩ where
  stream := fun _ h => by cases h
  call := fun i slot x rest buf h => absurd h (hcall i slot x rest buf)
  returned := h

/-- An exchange on a stream, which changes as the exchange goes on. -/
theorem of_exchange {conns : List Conn} {returned : List Returned} {i slot : Nat} {x : Exchange}
    {rest buf : Bytes} {c c' : Conn} (hc : conns[i]? = some c) (hgrows : c.Grows c')
    (hexchange : c'.Exchanging reqs resps x.asks rest buf)
    (hslot : c'.requests.length = slot + 1) (h : ∀ r ∈ returned, r.Holds conns) :
    LinkOk reqs resps ⟨none, .exchange i slot x rest buf, conns.set i c', returned⟩ where
  stream := fun _ h => by cases h
  call := fun _ _ _ _ _ hcall => by
    cases hcall
    exact ⟨c', List.getElem?_set_self (List.getElem?_eq_some_iff.mp hc).1, hexchange, hslot⟩
  returned := fun r hr => (h r hr).set hc hgrows

/-- A request is written on a stream at rest. -/
theorem ask {conns : List Conn} {returned : List Returned} {call : Call} {i : Nat} {x : Exchange}
    {c : Conn} (hc : conns[i]? = some c) (hquiet : c.Quiet reqs resps)
    (h : ∀ r ∈ returned, r.Holds conns)
    (hask : PeerLink.ask reqs ⟨none, call, conns, returned⟩ i x = some s') :
    LinkOk reqs resps s' := by
  simp only [PeerLink.ask, hc] at hask
  cases henc : reqs.enc x.asks with
  | none =>
      simp only [henc] at hask
      cases hask
      exact of_none (fun _ _ _ _ _ h => by cases h) h
  | some bytes =>
      simp only [henc] at hask
      cases hask
      refine of_exchange hc ⟨List.prefix_append _ _, List.prefix_rfl⟩ (hquiet.ask henc) ?_ h
      rw [Conn.ask, List.length_append, List.length_singleton]

/-- While a call is on, no stream is kept. -/
theorem stream_none (h : LinkOk reqs resps s) (hcall : s.call ≠ .idle) : s.stream = none := by
  cases hs : s.stream with
  | none => rfl
  | some i => exact absurd (h.stream i hs).1 hcall

theorem begin (h : LinkOk reqs resps s) {req : PeerRequest} {blocked : Bool}
    (hstep : s.begin reqs req blocked = some s') : LinkOk reqs resps s' := by
  rw [PeerLink.begin] at hstep
  split at hstep
  · next hidle =>
      split at hstep
      · cases hstep
        rw [hidle]
        exact of_none (fun _ _ _ _ _ h => by cases h) h.returned
      · split at hstep
        · cases hstep
          exact h
        · split at hstep
          · next i hstream =>
              obtain ⟨-, c, hc, hquiet⟩ := h.stream i hstream
              exact ask hc hquiet h.returned hstep
          · next hstream =>
              cases hstep
              rw [hstream]
              exact of_none (fun _ _ _ _ _ h => by cases h) h.returned
  · cases hstep

theorem connected (h : LinkOk reqs resps s) {accepted : Bool}
    (hstep : s.connected reqs token expected accepted = some s') : LinkOk reqs resps s' := by
  rw [PeerLink.connected] at hstep
  split at hstep
  · next req hcall =>
      have hnone := h.stream_none (by rw [hcall]; exact fun h => by cases h)
      have hc : (s.conns ++ [Conn.accept expected accepted])[s.conns.length]? =
          some (Conn.accept expected accepted) := by
        rw [List.getElem?_append_right (Nat.le_refl _), Nat.sub_self]
        rfl
      rw [hnone] at hstep
      refine ask hc (.accept accepted) (fun r hr => ?_) hstep
      obtain ⟨c, hc, hholds⟩ := h.returned r hr
      exact ⟨c, getElem?_of_prefix (List.prefix_append _ _) hc, hholds⟩
  · cases hstep

theorem send (h : LinkOk reqs resps s) (hstep : s.send = some s') : LinkOk reqs resps s' := by
  rw [PeerLink.send] at hstep
  split at hstep
  · next i slot x b rest buf hcall =>
      have hnone := h.stream_none (by rw [hcall]; exact fun h => by cases h)
      obtain ⟨c, hc, hexchange, hslot⟩ := h.call _ _ _ _ _ hcall
      simp only [hc] at hstep
      cases hstep
      rw [hnone]
      exact of_exchange hc ⟨List.prefix_rfl, List.prefix_rfl⟩ hexchange.clientSend hslot h.returned
  · cases hstep

/-- The answer of an exchange is read and decodes, or the call fails. -/
theorem answered {conns : List Conn} {returned : List Returned} {call : Call} {i slot : Nat}
    {x : Exchange} {buf body : Bytes} {c : Conn} (hc : conns[i]? = some c)
    (hexchange : c.Exchanging reqs resps x.asks [] buf) (hslot : c.requests.length = slot + 1)
    (hread : readFrame maxPeerFrame buf = .done body) (h : ∀ r ∈ returned, r.Holds conns)
    (hstep : PeerLink.answered reqs resps ⟨none, call, conns, returned⟩ i slot x body = some s') :
    LinkOk reqs resps s' := by
  simp only [PeerLink.answered] at hstep
  split at hstep
  · next req resp hdec =>
      obtain ⟨hquiet, answers, hrequests, hanswers⟩ := hexchange.decoded hread hdec
      have hlen : answers.length = slot := by
        rw [hrequests, List.length_append, List.length_map, List.length_singleton] at hslot
        omega
      cases hstep
      refine ⟨fun j hj => ?_, (fun _ _ _ _ _ hcall => by cases hcall), fun r hr => ?_⟩
      · cases hj
        exact ⟨rfl, c, hc, hquiet⟩
      · rcases List.mem_append.mp hr with hold | hnew
        · exact h r hold
        · rw [List.mem_singleton.mp hnew]
          refine ⟨c, hc, ?_, ?_⟩
          · rw [hrequests, List.getElem?_append_right (by rw [List.length_map, hlen]),
              List.length_map, hlen, Nat.sub_self]
            rfl
          · rw [hanswers, List.getElem?_append_right (by rw [hlen]), hlen, Nat.sub_self]
            rfl
  · next hdec =>
      obtain ⟨hquiet, -⟩ := hexchange.decoded hread hdec
      exact ask hc hquiet h hstep
  · cases hstep
    exact of_none (fun _ _ _ _ _ h => by cases h) h

theorem recv (h : LinkOk reqs resps s) (hstep : s.recv reqs resps = some s') :
    LinkOk reqs resps s' := by
  rw [PeerLink.recv] at hstep
  split at hstep
  · next i slot x buf hcall =>
      have hnone := h.stream_none (by rw [hcall]; exact fun h => by cases h)
      obtain ⟨c, hc, hexchange, hslot⟩ := h.call _ _ _ _ _ hcall
      simp only [hc] at hstep
      split at hstep
      · next b later hb =>
          have hnext := hexchange.clientRecv hb
          have hgrows : c.Grows (c.clientRecv b later) := ⟨List.prefix_rfl, List.prefix_rfl⟩
          have hget : (s.conns.set i (c.clientRecv b later))[i]? = some (c.clientRecv b later) :=
            List.getElem?_set_self (List.getElem?_eq_some_iff.mp hc).1
          have hreturned : ∀ r ∈ s.returned, r.Holds (s.conns.set i (c.clientRecv b later)) :=
            fun r hr => (h.returned r hr).set hc hgrows
          rw [hnone] at hstep
          split at hstep
          · cases hstep
            exact of_exchange hc hgrows hnext hslot h.returned
          · cases hstep
            exact of_none (fun _ _ _ _ _ h => by cases h) hreturned
          · next hread => exact answered hget hnext hslot hread hreturned hstep
      · cases hstep
  · cases hstep

/-- A step of the server of any stream. -/
theorem update (expected : Option Bytes) (h : LinkOk reqs resps s) {i : Nat} {f : Conn → Option Conn}
    (hmove : ∀ c c', f c = some c' → ServerMove reqs resps expected c c')
    (hstep : s.update i f = some s') : LinkOk reqs resps s' := by
  rw [PeerLink.update] at hstep
  split at hstep
  · next c hc =>
      obtain ⟨c', hf, rfl⟩ := Option.map_eq_some_iff.mp hstep
      have hc' := hmove c c' hf
      have hself : (s.conns.set i c')[i]? = some c' :=
        List.getElem?_set_self (List.getElem?_eq_some_iff.mp hc).1
      refine ⟨fun j hj => ?_, fun j slot x rest buf hcall => ?_, fun r hr => ?_⟩
      · obtain ⟨hidle, d, hd, hquiet⟩ := h.stream j hj
        refine ⟨hidle, ?_⟩
        by_cases hij : i = j
        · subst hij
          obtain rfl : d = c := Option.some.inj (hd.symm.trans hc)
          exact ⟨c', hself, hquiet.move hc'⟩
        · exact ⟨d, (List.getElem?_set_ne hij).trans hd, hquiet⟩
      · obtain ⟨d, hd, hexchange, hslot⟩ := h.call j slot x rest buf hcall
        by_cases hij : i = j
        · subst hij
          obtain rfl : d = c := Option.some.inj (hd.symm.trans hc)
          exact ⟨c', hself, hexchange.move hc', by rw [hc'.requests, hslot]⟩
        · exact ⟨d, (List.getElem?_set_ne hij).trans hd, hexchange, hslot⟩
      · exact (h.returned r hr).set hc hc'.grows
  · cases hstep

theorem step (h : LinkOk reqs resps s) {e : LinkEvent}
    (hstep : s.step reqs resps token expected e = some s') : LinkOk reqs resps s' := by
  cases e with
  | call req blocked => exact h.begin hstep
  | connected accepted => exact h.connected hstep
  | send => exact h.send hstep
  | recv => exact h.recv hstep
  | fail =>
      rw [PeerLink.step] at hstep
      split at hstep
      · cases hstep
      · cases hstep
        exact ⟨fun i hi => ⟨rfl, (h.stream i hi).2⟩, (fun _ _ _ _ _ hcall => by cases hcall),
          h.returned⟩
  | serverRecv i => exact h.update expected (fun _ _ => .of_recv) hstep
  | serverRaft i resp => exact h.update expected (fun _ _ => .of_raft) hstep
  | serverSend i => exact h.update expected (fun _ _ => .of_send) hstep
  | serverWrote i => exact h.update expected (fun _ _ => .of_wrote) hstep
  | serverFail i =>
      refine h.update expected (fun c c' hf => ?_) hstep
      exact Option.some.inj hf ▸ .fail

end LinkOk

/-- In every run of calls, failures and cancellations at any point, with
any codecs, tokens and peer: whenever a stream is kept, every request
written on it was written in full, answered, and its answer read in full,
and nothing else is on it. And what a call returned is the answer
`handle_conn` gave to that call's request, on the stream and at the place
where the call wrote it. -/
theorem answers_match_requests (reqs : StreamCodec PeerRequest) (resps : StreamCodec PeerResponse)
    (token : Option String) (expected : Option Bytes) (events : List LinkEvent) (s : PeerLink)
    (hrun : PeerLink.run reqs resps token expected events = some s) :
    (∀ i, s.stream = some i → ∃ c, s.conns[i]? = some c ∧
      c.sent = c.requests.flatMap (frameOf reqs) ∧ c.toServer = [] ∧
      c.server.answers.map Prod.fst = c.requests ∧
      c.received = (c.server.answers.flatMap fun a => frameOf resps a.2) ∧ c.toClient = []) ∧
    (∀ r ∈ s.returned, ∃ c, s.conns[r.conn]? = some c ∧ c.requests[r.slot]? = some r.req ∧
      c.server.answers[r.slot]? = some (r.req, r.resp)) := by
  have hok : LinkOk reqs resps s :=
    Machine.run_keeps (fun _ _ _ h hstep => h.step hstep) .start hrun
  refine ⟨fun i hi => ?_, hok.returned⟩
  obtain ⟨-, c, hc, h⟩ := hok.stream i hi
  exact ⟨c, hc, h.sent, h.toServer, h.matched, h.received, h.toClient⟩

/-- A request for a vote, and its answer. -/
def askVote : PeerRequest := .vote ⟨⟨⟨1, 2⟩, false⟩, none⟩

def voteGranted : PeerResponse := .vote (.ok ⟨⟨⟨1, 2⟩, false⟩, true, none⟩)

/-- Bytes that go from one side to the other. -/
def transfer (n : Nat) (out arrive : LinkEvent) : List LinkEvent :=
  (List.replicate n [out, arrive]).flatten

/-- A call that is dropped while it waits for its answer, which is given
nevertheless, and a second one, on a new stream. -/
def droppedCall : List LinkEvent :=
  [.call askVote false, .connected true] ++ transfer 5 .send (.serverRecv 0) ++
  transfer 5 (.serverSend 0) .recv ++ [.serverWrote 0] ++ transfer 5 .send (.serverRecv 0) ++
  [.fail, .serverRaft 0 voteGranted, .call askVote false, .connected true] ++
  transfer 5 .send (.serverRecv 1) ++ [.serverSend 0] ++ transfer 5 (.serverSend 1) .recv ++
  [.serverWrote 1] ++ transfer 5 .send (.serverRecv 1) ++ [.serverRaft 1 voteGranted] ++
  transfer 5 (.serverSend 1) .recv

theorem answers_match_requests_dropped :
    let reqs := StreamCodec.ofList [askVote, .auth "k"] (by decide)
    let resps := StreamCodec.ofList [voteGranted, .auth true] (by decide)
    ∃ s, PeerLink.run reqs resps (some "k") (some (utf8Bytes "k")) droppedCall = some s ∧
      s.stream = some 1 ∧ s.returned = [⟨1, 1, askVote, voteGranted⟩] ∧
      ∀ r ∈ s.returned, ∃ c, s.conns[r.conn]? = some c ∧ c.requests[r.slot]? = some r.req ∧
        c.server.answers[r.slot]? = some (r.req, r.resp) := by
  intro reqs resps
  have heval : (PeerLink.run reqs resps (some "k") (some (utf8Bytes "k")) droppedCall).map
      (fun s => (s.stream, s.returned)) = some (some 1, [⟨1, 1, askVote, voteGranted⟩]) := by
    decide +kernel
  obtain ⟨s, hrun, hs⟩ := Option.map_eq_some_iff.mp heval
  obtain ⟨hstream, hreturned⟩ := Prod.mk.inj hs
  exact ⟨s, hrun, hstream, hreturned,
    (answers_match_requests reqs resps (some "k") (some (utf8Bytes "k")) droppedCall s hrun).2⟩

end HermesMq
