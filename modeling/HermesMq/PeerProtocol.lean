import HermesMq.ClientProtocol
import HermesMq.SnapshotStore

/-!
# The peer protocol

The requests nodes send each other, which are the consensus layer's own
with one for the token added, and `handle_conn`, which serves them on one
connection: read a frame, pass it on, write the answer, read the next.
There is one answer for each request, and no two requests at a time.
-/

namespace HermesMq

/-! ## Messages -/

structure Vote where
  leaderId : CommittedLeaderId
  committed : Bool
deriving DecidableEq

structure AppendEntriesRequest where
  vote : Vote
  prevLogId : Option LogId
  entries : List Entry
  leaderCommit : Option LogId
deriving DecidableEq

structure VoteRequest where
  vote : Vote
  lastLogId : Option LogId
deriving DecidableEq

structure InstallSnapshotRequest where
  vote : Vote
  snapshotMeta : SnapshotMeta
  offset : Nat
  data : Bytes
  done : Bool
deriving DecidableEq

inductive PeerRequest where
  | appendEntries (r : AppendEntriesRequest)
  | vote (r : VoteRequest)
  | installSnapshot (r : InstallSnapshotRequest)
  | auth (token : String)
deriving DecidableEq

inductive AppendEntriesResponse where
  | success
  | partialSuccess (matching : Option LogId)
  | conflict
  | higherVote (vote : Vote)
deriving DecidableEq

structure VoteResponse where
  vote : Vote
  voteGranted : Bool
  lastLogId : Option LogId
deriving DecidableEq

structure SnapshotSegmentId where
  id : String
  offset : Nat
deriving DecidableEq

/-- An error of the consensus layer: it stopped, or the call failed. -/
inductive RaftError (E : Type) where
  | fatal (text : String)
  | api (e : E)
deriving DecidableEq

inductive PeerResponse where
  | appendEntries (res : Except (RaftError Empty) AppendEntriesResponse)
  | vote (res : Except (RaftError Empty) VoteResponse)
  /-- The segment a follower expects, and the one it got, if they differ. -/
  | installSnapshot (res : Except (RaftError (SnapshotSegmentId × SnapshotSegmentId)) Vote)
  | auth (ok : Bool)
deriving DecidableEq

/-- The consensus layer stopped; the connection ends with this answer. -/
def PeerResponse.stopped : PeerResponse → Bool
  | .appendEntries (.error (.fatal _)) | .vote (.error (.fatal _))
  | .installSnapshot (.error (.fatal _)) => true
  | _ => false

/-- The response is of the kind the request asks for. -/
def PeerResponse.answers : PeerResponse → PeerRequest → Bool
  | .appendEntries _, .appendEntries _ | .vote _, .vote _
  | .installSnapshot _, .installSnapshot _ | .auth _, .auth _ => true
  | _, _ => false

/-! ## Serving a connection -/

/-- Where the loop of `handle_conn` is; `writing` knows if the connection
ends after the answer. -/
inductive ServePhase where
  | reading
  | serving (req : PeerRequest)
  | writing (resp : PeerResponse) (last : Bool)
  | closed

/-- A frame that was read, `none` if it could not be decoded, and if it
was passed to the consensus layer. -/
structure PeerFrame where
  frame : Option PeerRequest
  toRaft : Bool

/-- A connection of the peer port. `frames` and `answers` are what
happened so far. -/
structure HandleConn where
  authed : Bool
  phase : ServePhase := .reading
  frames : List PeerFrame := []
  answers : List (PeerRequest × PeerResponse) := []

inductive ServeEvent where
  | frame (frame : Option PeerRequest)
  /-- The consensus layer answers. -/
  | raft (resp : PeerResponse)
  | wrote
  /-- Reading, encoding or writing fails. -/
  | failed

namespace HandleConn

def start (token : Option Bytes) : HandleConn := { authed := token.isNone }

/-- An `Auth`, which decides anew each time. -/
def onAuth (token : Option Bytes) (s : HandleConn) (offered : String) : HandleConn :=
  let authed := match token with
    | some expected => secretEq (utf8Bytes offered) expected
    | none => true
  { authed
    phase := .writing (.auth authed) (!authed)
    frames := s.frames ++ [⟨some (.auth offered), false⟩]
    answers := s.answers ++ [(.auth offered, .auth authed)] }

/-- A request for the consensus layer. -/
def onRpc (s : HandleConn) (req : PeerRequest) : HandleConn :=
  if s.authed then { s with phase := .serving req, frames := s.frames ++ [⟨some req, true⟩] }
  else { s with phase := .closed, frames := s.frames ++ [⟨some req, false⟩] }

/-- What `handle_conn` does with a frame. -/
def onFrame (token : Option Bytes) (s : HandleConn) : Option PeerRequest → HandleConn
  | none => { s with phase := .closed, frames := s.frames ++ [⟨none, false⟩] }
  | some (.auth offered) => s.onAuth token offered
  | some req => s.onRpc req

def onRaft (s : HandleConn) (resp : PeerResponse) : Option HandleConn :=
  match s.phase with
  | .serving req =>
      if resp.answers req then
        some { s with
          phase := .writing resp resp.stopped
          answers := s.answers ++ [(req, resp)] }
      else none
  | _ => none

def onWrote (s : HandleConn) : Option HandleConn :=
  match s.phase with
  | .writing _ last => some { s with phase := if last then .closed else .reading }
  | _ => none

def step (token : Option Bytes) (s : HandleConn) : ServeEvent → Option HandleConn
  | .frame frame =>
      match s.phase with
      | .reading => some (s.onFrame token frame)
      | _ => none
  | .raft resp => s.onRaft resp
  | .wrote => s.onWrote
  | .failed => some { s with phase := .closed }

def run (token : Option Bytes) (events : List ServeEvent) : Option HandleConn :=
  Machine.run (step token) (start token) events

end HandleConn

/-- The steps of a connection of the peer port. -/
inductive ServeStep (token : Option Bytes) (s : HandleConn) : ServeEvent → HandleConn → Prop
  | frame {f : Option PeerRequest} (hphase : s.phase = .reading) :
      ServeStep token s (.frame f) (s.onFrame token f)
  | raft {req : PeerRequest} {resp : PeerResponse} (hphase : s.phase = .serving req)
      (ha : resp.answers req = true) :
      ServeStep token s (.raft resp)
        { s with phase := .writing resp resp.stopped, answers := s.answers ++ [(req, resp)] }
  | wrote {resp : PeerResponse} {last : Bool} (hphase : s.phase = .writing resp last) :
      ServeStep token s .wrote { s with phase := if last then .closed else .reading }
  | failed : ServeStep token s .failed { s with phase := .closed }

namespace HandleConn

theorem step_cases {token : Option Bytes} {s s' : HandleConn} {e : ServeEvent}
    (h : s.step token e = some s') : ServeStep token s e s' := by
  cases e with
  | frame f =>
      rw [step] at h
      split at h
      · next hphase => exact Option.some.inj h ▸ .frame hphase
      · cases h
  | raft resp =>
      rw [step, onRaft] at h
      split at h
      · next hphase =>
          split at h
          · next ha => exact Option.some.inj h ▸ .raft hphase ha
          · cases h
      · cases h
  | wrote =>
      rw [step, onWrote] at h
      split at h
      · next hphase => exact Option.some.inj h ▸ .wrote hphase
      · cases h
  | failed => exact Option.some.inj h ▸ .failed

end HandleConn

end HermesMq
