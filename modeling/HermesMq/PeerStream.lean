import HermesMq.EntryLayout
import HermesMq.FrameStream

/-!
# Peer requests on a stream

The bytes of a connection come in pieces of the network's choosing, and the
connection can break anywhere. `handle_conn` reads a frame, decodes it,
serves it, and goes on until something fails or the connection has to end.
Each time it reads it gets the next of the requests, if the frame of that
one has arrived as a whole, and nothing otherwise (`peer_requests_arrive`).

Nodes of two releases may talk to each other. A request is known by its
place in an enumeration that only ever grows at its end, so an older node
takes a request for itself or not at all (`builds_never_misread`).
-/

namespace HermesMq

open Wire

namespace Transport

/-- A frame that has not arrived as a whole is not read. -/
theorem readFrame_broken {r : Transport} {body : Bytes} (hbody : body.length ≤ maxPeerFrame)
    (hr : r.bytes <+: writeFrame body) (hlen : r.bytes.length < (writeFrame body).length) :
    ∃ e r', r.readFrame maxPeerFrame = (.error e, r') := by
  rcases Nat.lt_or_ge r.bytes.length 4 with hshort | hlong
  · obtain ⟨r', h⟩ := readFrame_short maxPeerFrame hshort
    exact ⟨_, r', h⟩
  · have hheader : r.bytes.take 4 = frameHeader body.length := by
      obtain ⟨rest, hrest⟩ := hr
      have htake := congrArg (List.take 4) hrest
      rw [List.take_append_of_le_length hlong] at htake
      exact htake
    have hframe : frameLen (r.bytes.take 4) = body.length := by
      rw [hheader, frameLen_frameHeader]
      exact Nat.mod_eq_of_lt (hbody.trans_lt (by decide))
    have hcut : r.bytes.length < 4 + frameLen (r.bytes.take 4) := by
      rw [hframe]
      rwa [writeFrame, List.length_append] at hlen
    obtain ⟨r', h⟩ := readFrame_cut hlong (hframe ▸ hbody) hcut
    exact ⟨_, r', h⟩

end Transport

/-- The frames a peer writes for its requests. -/
def requestFrames (reqs : List PeerRequest) : Bytes :=
  (reqs.map fun req => writeFrame req.encode).flatten

theorem requestFrames_append (xs ys : List PeerRequest) :
    requestFrames (xs ++ ys) = requestFrames xs ++ requestFrames ys := by
  rw [requestFrames, List.map_append, List.flatten_append]
  rfl

theorem requestFrames_split (reqs : List PeerRequest) (j : Nat) :
    requestFrames reqs = requestFrames (reqs.take j) ++ requestFrames (reqs.drop j) := by
  rw [← requestFrames_append, List.take_append_drop]

theorem requestFrames_take_succ {reqs : List PeerRequest} {j : Nat} {req : PeerRequest}
    (h : reqs[j]? = some req) :
    requestFrames (reqs.take (j + 1)) = requestFrames (reqs.take j) ++ writeFrame req.encode := by
  rw [List.take_add_one, h, requestFrames_append]
  exact congrArg _ (List.append_nil _)

/-! ## Serving the bytes of a connection -/

/-- A connection of the peer port, and what its stream has left. -/
structure PeerStream where
  server : HandleConn
  stream : Transport

inductive PeerStreamEvent where
  /-- The loop reads a frame and decodes it. -/
  | read
  | raft (resp : PeerResponse)
  | wrote
  /-- The deadline of a body passes, or reading, encoding or writing fails. -/
  | failed

namespace PeerStream

section

variable (token : Option Bytes)

def read (s : PeerStream) : PeerStream :=
  match s.stream.readFrame maxPeerFrame with
  | (.ok body, r) => ⟨s.server.onFrame token (PeerRequest.layout.decode body), r⟩
  | (.error _, r) => ⟨{ s.server with phase := .closed }, r⟩

def step (s : PeerStream) : PeerStreamEvent → Option PeerStream
  | .read =>
      match s.server.phase with
      | .reading => some (s.read token)
      | _ => none
  | .raft resp => (s.server.onRaft resp).map fun server => { s with server }
  | .wrote => s.server.onWrote.map fun server => { s with server }
  | .failed => some { s with server := { s.server with phase := .closed } }

def run (r : Transport) (events : List PeerStreamEvent) : Option PeerStream :=
  Machine.run (step token) ⟨HandleConn.start token, r⟩ events

end

variable {token : Option Bytes} {s s' : PeerStream} {e : PeerStreamEvent}

/-- What the bytes bring is a step of `handle_conn`. -/
theorem server_step (h : s.step token e = some s') :
    ∃ e', s.server.step token e' = some s'.server := by
  cases e with
  | read =>
      rw [step] at h
      split at h
      · next hphase =>
          cases h
          rw [read]
          split
          · next body r hread =>
              exact ⟨.frame (PeerRequest.layout.decode body), by rw [HandleConn.step, hphase]⟩
          · exact ⟨.failed, rfl⟩
      · cases h
  | raft resp =>
      obtain ⟨server, hserver, rfl⟩ := Option.map_eq_some_iff.mp h
      exact ⟨.raft resp, hserver⟩
  | wrote =>
      obtain ⟨server, hserver, rfl⟩ := Option.map_eq_some_iff.mp h
      exact ⟨.wrote, hserver⟩
  | failed =>
      cases h
      exact ⟨.failed, rfl⟩

/-! ### Frame by frame -/

/-- The loop has read `j` of the requests, and has the rest before it. -/
structure Reads (reqs : List PeerRequest) (r : Transport) (j : Nat) (s : PeerStream) : Prop where
  frames : s.server.frames.map PeerFrame.frame = (reqs.take j).map some
  le : j ≤ reqs.length
  arrived : requestFrames (reqs.take j) <+: r.bytes
  left : s.server.phase ≠ .closed → requestFrames (reqs.take j) ++ s.stream.bytes = r.bytes

/-- The frame of request `j` has arrived as a whole. -/
def Whole (reqs : List PeerRequest) (r : Transport) (j : Nat) : Prop :=
  j < reqs.length ∧ (requestFrames (reqs.take (j + 1))).length ≤ r.bytes.length

variable {reqs : List PeerRequest} {r : Transport} {j : Nat}

theorem Reads.start (reqs : List PeerRequest) (r : Transport) (token : Option Bytes) :
    Reads reqs r 0 ⟨HandleConn.start token, r⟩ where
  frames := rfl
  le := Nat.zero_le _
  arrived := List.nil_prefix
  left _ := rfl

/-- The loop does not read. -/
theorem Reads.keep (h : Reads reqs r j s) (hframes : s'.server.frames = s.server.frames)
    (hstream : s'.server.phase ≠ .closed →
      s'.stream = s.stream ∧ s.server.phase ≠ .closed) : Reads reqs r j s' where
  frames := hframes ▸ h.frames
  le := h.le
  arrived := h.arrived
  left hopen := by
    obtain ⟨hsame, hopen⟩ := hstream hopen
    rw [hsame]
    exact h.left hopen

theorem onFrame_frames (server : HandleConn) (f : Option PeerRequest) :
    (server.onFrame token f).frames.map PeerFrame.frame =
      server.frames.map PeerFrame.frame ++ [f] := by
  cases f with
  | none => exact List.map_append
  | some req =>
      cases req with
      | auth offered => exact List.map_append
      | _ =>
          simp only [HandleConn.onFrame, HandleConn.onRpc]
          split <;> exact List.map_append

/-- A read that fails ends the connection. -/
theorem Reads.readFailed (h : Reads reqs r j s) {e : ReadError} {r' : Transport}
    (hread : s.stream.readFrame maxPeerFrame = (.error e, r')) :
    (s.read token).server = { s.server with phase := .closed } ∧ Reads reqs r j (s.read token) := by
  rw [PeerStream.read, hread]
  exact ⟨rfl, h.keep rfl fun hopen => absurd rfl hopen⟩

/-- A read that brings the next request. -/
theorem Reads.readNext (h : Reads reqs r j s) {req : PeerRequest} (hreq : reqs[j]? = some req)
    (hfits : PeerRequest.layout.Fits req) {r' : Transport}
    (hread : s.stream.readFrame maxPeerFrame = (.ok req.encode, r'))
    (hbytes : requestFrames (reqs.take (j + 1)) ++ r'.bytes = r.bytes) :
    (s.read token).server = s.server.onFrame token (some req) ∧
      Reads reqs r (j + 1) (s.read token) := by
  have hdecode := PeerRequest.layout.decode_write hfits
  rw [PeerRequest.layout_write] at hdecode
  rw [PeerStream.read, hread]
  simp only [hdecode]
  refine ⟨trivial, ?_, (List.getElem?_eq_some_iff.mp hreq).1, ⟨_, hbytes⟩, fun _ => hbytes⟩
  rw [onFrame_frames, h.frames, List.take_add_one, hreq, List.map_append]
  rfl

/-- One turn of the loop: the next request, or the end. -/
theorem Reads.read (hreqs : ∀ req ∈ reqs, PeerRequest.layout.Fits req ∧
      req.encode.length ≤ maxPeerFrame) (hr : r.bytes <+: requestFrames reqs)
    (h : Reads reqs r j s) (hopen : s.server.phase ≠ .closed) :
    (Whole reqs r j ∧ (s.read token).server = s.server.onFrame token reqs[j]? ∧
      Reads reqs r (j + 1) (s.read token)) ∨
    (¬Whole reqs r j ∧ (s.read token).server = { s.server with phase := .closed } ∧
      Reads reqs r j (s.read token)) := by
  have hleft := h.left hopen
  have hrest : s.stream.bytes <+: requestFrames (reqs.drop j) := by
    rw [← hleft, requestFrames_split reqs j] at hr
    exact (List.prefix_append_right_inj _).mp hr
  have hlen := congrArg List.length hleft
  rw [List.length_append] at hlen
  cases hreq : reqs[j]? with
  | none =>
      -- all requests are read, and nothing is left
      have hj := List.getElem?_eq_none_iff.mp hreq
      rw [List.drop_of_length_le hj] at hrest
      have hshort : s.stream.bytes.length < 4 := by rw [List.prefix_nil.mp hrest]; decide
      obtain ⟨r', hread⟩ := Transport.readFrame_short maxPeerFrame hshort
      exact .inr ⟨fun hwhole => absurd hwhole.1 (not_lt.mpr hj), h.readFailed hread⟩
  | some req =>
      obtain ⟨hj, rfl⟩ := List.getElem?_eq_some_iff.mp hreq
      obtain ⟨hfits, hmax⟩ := hreqs _ (List.getElem_mem hj)
      have hwhole : Whole reqs r j ↔
          (writeFrame reqs[j].encode).length ≤ s.stream.bytes.length := by
        rw [Whole, requestFrames_take_succ hreq, List.length_append]
        omega
      have hnext : requestFrames (reqs.drop j) =
          writeFrame reqs[j].encode ++ requestFrames (reqs.drop (j + 1)) := by
        rw [List.drop_eq_getElem_cons hj]
        rfl
      rw [hnext] at hrest
      rcases Nat.lt_or_ge s.stream.bytes.length (writeFrame reqs[j].encode).length with hlt | hge
      · have hbroken := List.prefix_of_prefix_length_le hrest (List.prefix_append ..) hlt.le
        obtain ⟨e, r', hread⟩ := Transport.readFrame_broken hmax hbroken hlt
        exact .inr ⟨fun hw => absurd (hwhole.mp hw) (not_le.mpr hlt), h.readFailed hread⟩
      · obtain ⟨more, hmore⟩ := List.prefix_of_prefix_length_le (List.prefix_append ..) hrest hge
        obtain ⟨r', hread, hbytes⟩ :=
          Transport.readFrame_written (by decide : maxPeerFrame < 2 ^ 32) hmax hmore.symm
        refine .inl ⟨hwhole.mpr hge, h.readNext hreq hfits hread ?_⟩
        rw [requestFrames_take_succ hreq, hbytes, List.append_assoc, hmore, hleft]

theorem Reads.step (hreqs : ∀ req ∈ reqs, PeerRequest.layout.Fits req ∧
      req.encode.length ≤ maxPeerFrame) (hr : r.bytes <+: requestFrames reqs)
    (h : Reads reqs r j s) (hstep : s.step token e = some s') : ∃ j', Reads reqs r j' s' := by
  cases e with
  | read =>
      rw [PeerStream.step] at hstep
      split at hstep
      · next hphase =>
          cases hstep
          rcases h.read hreqs hr (by rw [hphase]; exact ServePhase.noConfusion) with
            ⟨-, -, h'⟩ | ⟨-, -, h'⟩
          · exact ⟨_, h'⟩
          · exact ⟨_, h'⟩
      · cases hstep
  | raft resp =>
      obtain ⟨server, hserver, rfl⟩ := Option.map_eq_some_iff.mp hstep
      have hserve : ServeStep token s.server (.raft resp) server := HandleConn.step_cases hserver
      cases hserve with
      | raft hphase ha =>
          exact ⟨j, h.keep rfl fun _ => ⟨rfl, by rw [hphase]; exact ServePhase.noConfusion⟩⟩
  | wrote =>
      obtain ⟨server, hserver, rfl⟩ := Option.map_eq_some_iff.mp hstep
      have hserve : ServeStep token s.server .wrote server := HandleConn.step_cases hserver
      cases hserve with
      | wrote hphase =>
          exact ⟨j, h.keep rfl fun _ => ⟨rfl, by rw [hphase]; exact ServePhase.noConfusion⟩⟩
  | failed =>
      cases hstep
      exact ⟨j, h.keep rfl fun hopen => absurd rfl hopen⟩

end PeerStream

open PeerStream in
/-- The bytes of a connection may be cut into pieces anyhow, and the
connection may break anywhere. In every state of it the loop of
`handle_conn`, token and all, has read the first `j` of the requests, whose
frames have arrived; and where it reads again it gets the next one, if its
frame has arrived as a whole, and the end otherwise. -/
theorem peer_requests_arrive {token : Option Bytes} {reqs : List PeerRequest}
    (hreqs : ∀ req ∈ reqs, PeerRequest.layout.Fits req ∧ req.encode.length ≤ maxPeerFrame)
    {r : Transport} (hr : r.bytes <+: requestFrames reqs) {events : List PeerStreamEvent}
    {s : PeerStream} (hrun : run token r events = some s) :
    (∃ events', HandleConn.run token events' = some s.server) ∧
    ∃ j ≤ reqs.length, s.server.frames.map PeerFrame.frame = (reqs.take j).map some ∧
      requestFrames (reqs.take j) <+: r.bytes ∧
      (s.server.phase = .reading → ∃ s', s.step token .read = some s' ∧
        (Whole reqs r j → s'.server = s.server.onFrame token reqs[j]?) ∧
        (¬Whole reqs r j → s'.server = { s.server with phase := .closed })) := by
  refine ⟨Machine.run_simulates (fun _ _ _ hstep => .inr (server_step hstep)) hrun, ?_⟩
  have hkeep : ∀ s e s', (∃ j, Reads reqs r j s) → step token s e = some s' →
      ∃ j, Reads reqs r j s' := by
    rintro s e s' ⟨j, h⟩ hstep
    exact h.step hreqs hr hstep
  obtain ⟨j, h⟩ := Machine.run_keeps hkeep ⟨0, Reads.start reqs r token⟩ hrun
  refine ⟨j, h.le, h.frames, h.arrived, fun hphase => ⟨s.read token, ?_, ?_⟩⟩
  · rw [step, hphase]
  · rcases h.read hreqs hr (by rw [hphase]; exact ServePhase.noConfusion) with
      ⟨hwhole, hserver, -⟩ | ⟨hbroken, hserver, -⟩
    · exact ⟨fun _ => hserver, fun hn => absurd hwhole hn⟩
    · exact ⟨fun hw => absurd hw hbroken, fun _ => hserver⟩

def firstVote : PeerRequest := .vote ⟨⟨⟨1, 1⟩, false⟩, none⟩

def tokenAndVotes : List PeerRequest := [.auth "k", firstVote, firstVote]

theorem tokenAndVotes_fit : ∀ req ∈ tokenAndVotes,
    PeerRequest.layout.Fits req ∧ req.encode.length ≤ maxPeerFrame := by
  have hauth : PeerRequest.layout.Fits (.auth "k") ∧
      (PeerRequest.auth "k").encode.length ≤ maxPeerFrame := by
    refine ⟨fits_text_of_le (s := "k") le_rfl (by decide), ?_⟩
    rw [PeerRequest.encode, List.length_append, length_encodeText]
    simp (disch := decide) only [length_varint_of_lt]
    decide
  have hvote : PeerRequest.layout.Fits firstVote ∧ firstVote.encode.length ≤ maxPeerFrame := by
    have hone : Layout.u64.Fits 1 := fits_u64_of_le (by decide)
    refine ⟨⟨⟨hone, hone, trivial⟩, fun _ h => by cases h⟩, ?_⟩
    simp (disch := decide) only [firstVote, PeerRequest.encode, VoteRequest.encode, Vote.encode,
      CommittedLeaderId.encode, List.length_append, length_varint_of_lt]
    decide
  exact List.forall_mem_cons.mpr ⟨hauth, List.forall_mem_cons.mpr
    ⟨hvote, List.forall_mem_singleton.mpr hvote⟩⟩

open PeerStream in
/-- The bytes come one by one, and the last one does not come: the token and
the first vote are read, and the vote is passed on. -/
theorem peer_requests_arrive_broken :
    ∃ r s, r.bytes = (requestFrames tokenAndVotes).dropLast ∧
      run (some (utf8Bytes "k")) r [.read, .wrote, .read,
        .raft (.vote (.ok ⟨⟨⟨1, 1⟩, false⟩, true, none⟩)), .wrote, .read] = some s ∧
      s.server.frames = [⟨some (.auth "k"), false⟩, ⟨some firstVote, true⟩] ∧
      s.server.phase = .closed := by
  let r : Transport := (requestFrames tokenAndVotes).dropLast.map ([·])
  have hr : r.bytes = (requestFrames tokenAndVotes).dropLast := by
    rw [Transport.bytes, ← List.flatMap_def, List.flatMap_singleton']
  have hnext : ∀ events s, run (some (utf8Bytes "k")) r events = some s →
      s.server.phase = .reading → ∀ j, s.server.frames.length = j →
      ∃ s', s.step (some (utf8Bytes "k")) .read = some s' ∧
        (Whole tokenAndVotes r j →
          s'.server = s.server.onFrame (some (utf8Bytes "k")) tokenAndVotes[j]?) ∧
        (¬Whole tokenAndVotes r j → s'.server = { s.server with phase := .closed }) := by
    rintro events s hrun hphase _ rfl
    obtain ⟨-, j, hj, hframes, -, hread⟩ :=
      peer_requests_arrive tokenAndVotes_fit (hr ▸ List.dropLast_prefix _) hrun
    have hlen := congrArg List.length hframes
    rw [List.length_map, List.length_map, List.length_take, Nat.min_eq_left hj] at hlen
    rw [hlen]
    exact hread hphase
  have hwhole : Whole tokenAndVotes r 0 ∧ Whole tokenAndVotes r 1 ∧ ¬Whole tokenAndVotes r 2 := by
    have hframe : ∀ body, 4 ≤ (writeFrame body).length := fun body => by
      rw [writeFrame, List.length_append]
      exact Nat.le_add_right 4 _
    have hvote := hframe firstVote.encode
    simp only [Whole, hr, List.length_dropLast, tokenAndVotes, requestFrames, List.take_succ_cons,
      List.take_zero, List.map_cons, List.map_nil, List.flatten_cons, List.flatten_nil,
      List.length_append, List.length_cons, List.length_nil]
    omega
  have hauthed : secretEq (utf8Bytes "k") (utf8Bytes "k") = true := secretEq_iff.mpr rfl
  -- the token, the vote and the cut frame
  obtain ⟨⟨server, r₁⟩, hread, hserver, -⟩ := hnext [] _ rfl rfl 0 rfl
  replace hserver := hserver hwhole.1
  simp only [tokenAndVotes, List.getElem?_cons_zero, HandleConn.onFrame, HandleConn.onAuth, hauthed,
    HandleConn.start] at hserver
  subst hserver
  have hrun₁ : run (some (utf8Bytes "k")) r [.read, .wrote] = some _ :=
    Machine.run_cons_eq_some.mpr ⟨_, hread, rfl⟩
  obtain ⟨⟨server, r₂⟩, hread₂, hserver, -⟩ := hnext _ _ hrun₁ rfl 1 rfl
  replace hserver := hserver hwhole.2.1
  subst hserver
  have hrun₂ : run (some (utf8Bytes "k")) r [.read, .wrote, .read,
      .raft (.vote (.ok ⟨⟨⟨1, 1⟩, false⟩, true, none⟩)), .wrote] = some _ :=
    (Machine.run_append hrun₁ [_, _, _]).trans (Machine.run_cons_eq_some.mpr ⟨_, hread₂, rfl⟩)
  obtain ⟨⟨server, r₃⟩, hread₃, -, hserver⟩ := hnext _ _ hrun₂ rfl 2 rfl
  replace hserver := hserver hwhole.2.2
  subst hserver
  have hrun₃ : run (some (utf8Bytes "k")) r [.read, .wrote, .read,
      .raft (.vote (.ok ⟨⟨⟨1, 1⟩, false⟩, true, none⟩)), .wrote, .read] = some _ :=
    (Machine.run_append hrun₂ [_]).trans (Machine.run_cons_eq_some.mpr ⟨_, hread₃, rfl⟩)
  exact ⟨r, _, hr, hrun₃, rfl, rfl⟩

/-! ## Builds of different releases -/

/-- The requests of the log in a build that has the first `k` variants. -/
def AppRequest.layoutUpto (k : Nat) : Layout AppRequest :=
  .enum (variants.take k) ((List.length_take_le' ..).trans (by decide)) (variants_placed.take k)

/-- The peer requests in a build that has the first `m` variants of them,
and the first `k` of the requests of the log. -/
def PeerRequest.layoutUpto (k m : Nat) : Layout PeerRequest :=
  .enum ((variants (AppRequest.layoutUpto k)).take m)
    ((List.length_take_le' ..).trans (length_variants _)) ((variants_placed _).take m)

/-- A build that has the first `k` variants has the request's. -/
def AppRequest.Known (k : Nat) (req : AppRequest) : Prop := Variant.place variants req < k

def EntryPayload.Known (k : Nat) : EntryPayload → Prop
  | .normal req => req.Known k
  | .blank | .membership _ => True

/-- It has the request's, and those of all that the request carries. -/
def PeerRequest.Known (k m : Nat) (req : PeerRequest) : Prop :=
  Variant.place (variants AppRequest.layout) req < m ∧
    match req with
    | .appendEntries r => ∀ e ∈ r.entries, e.payload.Known k
    | .vote _ | .installSnapshot _ | .auth _ => True

theorem AppRequest.readBy (j k : Nat) : (layoutUpto j).ReadBy (layoutUpto k) (Known k) := by
  have hsame : List.Forall₂ (fun w r : Variant AppRequest => w.ReadBy r fun _ => True)
      variants variants :=
    List.forall₂_same.mpr fun v _ => Variant.ReadBy.refl v fun _ => trivial
  exact (Layout.ReadBy.enum hsame (by decide) (by decide) variants_placed variants_placed
    j k).congr fun _ => and_iff_left trivial

theorem EntryPayload.readBy (j k : Nat) :
    (layoutOf (AppRequest.layoutUpto j)).ReadBy (layoutOf (AppRequest.layoutUpto k))
      (Known k) := by
  have hsame : List.Forall₂ (fun w r : Variant EntryPayload => w.ReadBy r (Known k))
      (variants (AppRequest.layoutUpto j)) (variants (AppRequest.layoutUpto k)) :=
    .cons (.refl _ fun _ => trivial) <|
      .cons (.of (AppRequest.readBy j k) _ _ fun _ => Iff.rfl) <|
      .cons (.refl _ fun _ => trivial) .nil
  have hplace : ∀ payload, Variant.place (variants (AppRequest.layoutUpto j)) payload < 3 := by
    intro payload
    cases payload <;> exact Nat.le_of_ble_eq_true rfl
  exact (Layout.ReadBy.enum hsame (show 3 ≤ 2 ^ 32 by decide) (show 3 ≤ 2 ^ 32 by decide)
    (variants_placed _) (variants_placed _) 3 3).congr fun payload =>
      and_iff_right (hplace payload)

theorem AppendEntriesRequest.readBy (j k : Nat) :
    (layoutOf (AppRequest.layoutUpto j)).ReadBy (layoutOf (AppRequest.layoutUpto k))
      fun r => ∀ e ∈ r.entries, e.payload.Known k := by
  have hentry : (Entry.layoutOf (AppRequest.layoutUpto j)).ReadBy
      (Entry.layoutOf (AppRequest.layoutUpto k)) fun e => True ∧ e.payload.Known k :=
    ((Layout.ReadBy.refl LogId.layout).pair (EntryPayload.readBy j k)).record _ _
  have hmessage : (layoutOf (AppRequest.layoutUpto j)).ReadBy
      (layoutOf (AppRequest.layoutUpto k))
      fun r => True ∧ True ∧ (∀ e ∈ r.entries, True ∧ e.payload.Known k) ∧ True :=
    ((Layout.ReadBy.refl Vote.layout).pair ((Layout.ReadBy.refl LogId.layout.option).pair
      (hentry.seq.pair (Layout.ReadBy.refl LogId.layout.option)))).record _ _
  exact hmessage.congr fun r => by simp only [true_and, and_true]

/-- A message that one build has written, another build reads as what it is,
if it has the variant of the message and of every request in its entries,
and otherwise as nothing. -/
theorem builds_never_misread (j j' k k' : Nat) {req : PeerRequest}
    (hfits : (PeerRequest.layoutUpto j j').Fits req) (rest : Bytes) :
    (req.Known k k' → (PeerRequest.layoutUpto k k').read
      ((PeerRequest.layoutUpto j j').write req ++ rest) = some (req, rest)) ∧
    (¬req.Known k k' → (PeerRequest.layoutUpto k k').read
      ((PeerRequest.layoutUpto j j').write req ++ rest) = none) := by
  have hsame : List.Forall₂ (fun w r : Variant PeerRequest => w.ReadBy r fun req =>
      match req with
      | .appendEntries r => ∀ e ∈ r.entries, e.payload.Known k
      | .vote _ | .installSnapshot _ | .auth _ => True)
      (PeerRequest.variants (AppRequest.layoutUpto j))
      (PeerRequest.variants (AppRequest.layoutUpto k)) :=
    .cons (.of (AppendEntriesRequest.readBy j k) _ _ fun _ => Iff.rfl) <|
      .cons (.refl _ fun _ => trivial) <| .cons (.refl _ fun _ => trivial) <|
      .cons (.refl _ fun _ => trivial) .nil
  have hread := Layout.ReadBy.enum hsame (PeerRequest.length_variants _)
    (PeerRequest.length_variants _) (PeerRequest.variants_placed _)
    (PeerRequest.variants_placed _) j' k'
  have hplace : ∀ req, Variant.place (PeerRequest.variants (AppRequest.layoutUpto j)) req =
      Variant.place (PeerRequest.variants AppRequest.layout) req := by
    intro req
    cases req <;> rfl
  have hall : (PeerRequest.layoutUpto j j').ReadBy (PeerRequest.layoutUpto k k')
      (PeerRequest.Known k k') :=
    hread.congr fun req => and_congr_left' (by rw [hplace])
  exact hall req hfits rest

/-- This build has fourteen variants of the one and four of the other. -/
example : PeerRequest.layoutUpto 14 4 = PeerRequest.layout := rfl

/-- The last entry of the message is a commit. -/
def commitMessage (commit : AppRequest) : PeerRequest :=
  .appendEntries ⟨⟨⟨1, 1⟩, true⟩, none,
    [⟨⟨⟨1, 1⟩, 1⟩, .blank⟩, ⟨⟨⟨1, 1⟩, 2⟩, .normal commit⟩], none⟩

theorem commitMessage_fits {commit : AppRequest} (h : AppRequest.layout.Fits commit) :
    PeerRequest.layout.Fits (commitMessage commit) := by
  have hnum : ∀ {n : Nat}, n ≤ 2 → Layout.u64.Fits n := fun h =>
    fits_u64_of_le (h.trans (by decide))
  have hnone : LogId.layout.option.Fits none := fun _ h => (by cases h)
  have hblank : Entry.layout.Fits ⟨⟨⟨1, 1⟩, 1⟩, .blank⟩ :=
    ⟨⟨hnum (n := 1) (by decide), hnum (n := 1) (by decide), hnum (n := 1) (by decide)⟩, trivial⟩
  have hcommit : Entry.layout.Fits ⟨⟨⟨1, 1⟩, 2⟩, .normal commit⟩ :=
    ⟨⟨hnum (n := 1) (by decide), hnum (n := 1) (by decide), hnum (n := 2) le_rfl⟩, h⟩
  exact ⟨⟨hnum (n := 1) (by decide), hnum (n := 1) (by decide), trivial⟩, hnone,
    ⟨hnum (n := 2) le_rfl,
      List.forall_mem_cons.mpr ⟨hblank, List.forall_mem_singleton.mpr hcommit⟩⟩, hnone⟩

/-- To a build of before the stamps a message with a stamped commit is
nothing, its first entry included, and one with a plain commit is itself. -/
theorem builds_never_misread_commit :
    (PeerRequest.layoutUpto 13 3).read
        (PeerRequest.layout.write (commitMessage (.commitOffsetAt "t" "g" 1 5))) = none ∧
      (PeerRequest.layoutUpto 13 3).read
        (PeerRequest.layout.write (commitMessage (.commitOffset "t" "g" 1))) =
          some (commitMessage (.commitOffset "t" "g" 1), []) := by
  have htext : ∀ {s : String}, s.utf8ByteSize = 1 → Layout.text.Fits s := fun h =>
    fits_text_of_le h.le (by decide)
  have hone : Layout.u64.Fits 1 := fits_u64_of_le (by decide)
  have hstamped : AppRequest.layout.Fits (.commitOffsetAt "t" "g" 1 5) :=
    ⟨htext rfl, htext rfl, hone, fits_u64_of_le (n := 5) (by decide)⟩
  have hplain : AppRequest.layout.Fits (.commitOffset "t" "g" 1) := ⟨htext rfl, htext rfl, hone⟩
  have hunread := (builds_never_misread 14 4 13 3 (commitMessage_fits hstamped) []).2 fun hk =>
    absurd (hk.2 _ (List.mem_cons_of_mem _ (List.mem_singleton.mpr rfl)))
      (show ¬13 < 13 by decide)
  have hread := (builds_never_misread 14 4 13 3 (commitMessage_fits hplain) []).1
    ⟨show 0 < 3 by decide,
      List.forall_mem_cons.mpr ⟨trivial, List.forall_mem_singleton.mpr (show 4 < 13 by decide)⟩⟩
  rw [List.append_nil] at hunread hread
  exact ⟨hunread, hread⟩

end HermesMq
