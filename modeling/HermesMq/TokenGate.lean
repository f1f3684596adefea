import HermesMq.ClientConnection
import HermesMq.Gate
import HermesMq.PeerProtocol

/-!
# Nothing is served before the token

Both ports ask for a token, each in its own way. The client port takes the
token of the first frame it can decode, once, and answers what it cannot
decode in the meantime. The peer port decides anew at every `Auth`, and
ends the connection at a frame it cannot decode.

Both are gates: whatever they serve comes after an `Auth` with exactly the
configured token, and the first other frame that can be decoded is the
last one that is read (`nothing_served_before_token`).
-/

namespace HermesMq

theorem getElem?_concat_eq_some {α : Type} {l : List α} {a x : α} {i : Nat}
    (h : (l ++ [a])[i]? = some x) : l[i]? = some x ∨ (i = l.length ∧ x = a) := by
  rcases Nat.lt_or_ge i l.length with hlt | hge
  · rw [List.getElem?_append_left hlt] at h
    exact .inl h
  · have hlen := (List.getElem?_eq_some_iff.mp h).1
    rw [List.length_append, List.length_singleton] at hlen
    obtain rfl : i = l.length := by omega
    rw [List.getElem?_append_right (Nat.le_refl _), Nat.sub_self] at h
    exact .inr ⟨rfl, (Option.some.inj h).symm⟩

/-! ## The client port -/

def ClientFrame.Presents (token : Bytes) (f : ClientFrame) : Prop :=
  ∃ offered, f = .ok ⟨some (.auth offered)⟩ ∧ utf8Bytes offered = token

def ClientFrame.Decodable (f : ClientFrame) : Prop := ∃ req, f = .ok req

theorem Request.presents_iff {req : Request} {token : Bytes} :
    req.presents (some token) = true ↔ ClientFrame.Presents token (.ok req) := by
  constructor
  · intro h
    obtain ⟨kind⟩ := req
    cases kind with
    | none => cases h
    | some kind =>
        cases kind with
        | auth offered => exact ⟨offered, rfl, secretEq_iff.mp h⟩
        | _ => cases h
  · rintro ⟨offered, heq, hbytes⟩
    cases heq
    exact secretEq_iff.mpr hbytes

/-- The loop reads no further frame. -/
def Reader.stopped : Reader → Bool
  | .reading => false
  | .sending _ ifSent ifFailed => !ifSent && !ifFailed
  | _ => true

namespace ClientConn

/-- The frame was passed to `handle_request`, or is the subscription the
loop ended with. -/
def serves (s : ClientConn) (i : Nat) : Prop :=
  (∃ slot, s.slots[i]? = some slot ∧ slot.spawned = true) ∨
    (i = s.slots.length ∧ s.reader.subFrame ≠ [])

/-- The invariant of the gate at a client connection. -/
def Gated (token : Bytes) (s : ClientConn) : Prop :=
  Gate (ClientFrame.Presents token) ClientFrame.Decodable s.frames s.serves s.authed
    s.reader.stopped

variable {token : Bytes} {s s' : ClientConn} {e : ConnEvent}

theorem serves_openSlot {slot : Slot} {authed ifSent ifFailed : Bool} {i : Nat}
    (h : ({ s with authed := authed }.openSlot slot ifSent ifFailed).serves i) :
    s.serves i ∨ (i = s.slots.length ∧ slot.spawned = true) := by
  rcases h with ⟨slot', hslot, hspawned⟩ | ⟨-, hsub⟩
  · rcases getElem?_concat_eq_some hslot with hold | ⟨hi, rfl⟩
    · exact .inl (.inl ⟨slot', hold, hspawned⟩)
    · exact .inr ⟨hi, hspawned⟩
  · exact absurd rfl hsub

theorem serves_finish {j : Nat} {f : ClientFrame} {answer : Oneshot}
    (hj : s.slots[j]? = some ⟨f, true, .pending⟩) {i : Nat}
    (h : serves { s with slots := s.slots.set j ⟨f, true, answer⟩ } i) : s.serves i := by
  rcases h with ⟨slot, hslot, hspawned⟩ | ⟨hi, hsub⟩
  · by_cases hij : j = i
    · subst hij
      exact .inl ⟨_, hj, rfl⟩
    · change (s.slots.set j _)[i]? = _ at hslot
      rw [List.getElem?_set_ne hij] at hslot
      exact .inl ⟨slot, hslot, hspawned⟩
  · change i = (s.slots.set j _).length at hi
    rw [List.length_set] at hi
    exact .inr ⟨hi, hsub⟩

/-- The loop moves on without a frame. -/
theorem Gated.moveReader (h : s.Gated token) {r : Reader}
    (hsub : r.subFrame = s.reader.subFrame) (hstopped : s.reader.stopped = true → r.stopped = true) :
    Gated token { s with reader := r } := by
  have hframes : frames { s with reader := r } = s.frames := by rw [frames, frames, hsub]
  rw [Gated, hframes]
  refine h.move (fun i hi => ?_) id hstopped
  rcases hi with hslot | ⟨hi, hne⟩
  · exact .inl hslot
  · exact .inr ⟨hi, hsub ▸ hne⟩

theorem Gated.frame (h : s.Gated token) {f : ClientFrame} (hr : s.reader = .reading)
    (hf : FrameStep (some token) s f s') : s'.Gated token := by
  have hopen : Gate (ClientFrame.Presents token) ClientFrame.Decodable s.frames s.serves s.authed
      false := by
    have h := h
    rw [Gated, hr] at h
    exact h
  have hlen : s.frames.length = s.slots.length := by
    rw [frames, hr, List.length_append, List.length_map]
    rfl
  rw [Gated, frames_frame hr hf]
  cases hf with
  | badRequest =>
      refine hopen.frame _ (fun i hi => ?_) .inl fun _ hdec => ?_
      · exact .inl ((serves_openSlot hi).resolve_right fun h => by cases h.2)
      · obtain ⟨req, hreq⟩ := hdec
        cases hreq
  | admitted ha hp =>
      refine hopen.frame _ (fun i hi => ?_) (fun _ => .inr (Request.presents_iff.mp hp))
        fun _ _ hn => absurd (Request.presents_iff.mp hp) hn
      exact .inl ((serves_openSlot hi).resolve_right fun h => by cases h.2)
  | refused ha hp =>
      refine hopen.frame _ (fun i hi => ?_) .inl fun _ _ _ => rfl
      exact .inl ((serves_openSlot hi).resolve_right fun h => by cases h.2)
  | spawned ha =>
      refine hopen.frame _ (fun i hi => ?_) .inl fun hn => absurd ha (Bool.eq_false_iff.mp hn)
      rw [hlen]
      exact (serves_openSlot hi).imp_right fun h => ⟨h.1, ha⟩
  | subscribed ha =>
      refine hopen.frame _ (fun i hi => ?_) .inl fun hn => absurd ha (Bool.eq_false_iff.mp hn)
      rw [hlen]
      exact hi.imp .inl fun h => ⟨h.1, ha⟩

theorem Gated.step (h : s.Gated token) (hstep : s.step (some token) e = some s') :
    s'.Gated token := by
  cases step_cases hstep with
  | frame hr hf => exact h.frame hr hf
  | readFailed hr => exact h.moveReader (by rw [hr]; rfl) fun _ => rfl
  | @sent slot ifSent ifFailed hr hw =>
      refine h.moveReader (r := .next ifSent) ?_ ?_
      · rw [hr]
        cases ifSent <;> rfl
      · rw [hr]
        cases ifSent <;> simp [Reader.stopped, Reader.next]
  | @sendFailed slot ifSent ifFailed hr hw =>
      refine h.moveReader ?_ ?_
      · rw [hr]
        cases ifFailed <;> rfl
      · rw [hr]
        cases ifFailed <;> simp [Reader.stopped, Reader.next]
  | answered hslot =>
      rw [Gated, frames_finish hslot]
      exact h.move (fun i hi => serves_finish hslot hi) id id
  | dropped hslot =>
      rw [Gated, frames_finish hslot]
      exact h.move (fun i hi => serves_finish hslot hi) id id
  | subscribed hr hw => exact h.moveReader (by rw [hr]; rfl) fun _ => rfl
  | @closed sub hr =>
      refine h.moveReader ?_ fun _ => rfl
      rw [hr]
      cases sub <;> rfl
  | _ => exact h

theorem run_gated {events : List ConnEvent} (hrun : run (some token) events = some s) :
    s.Gated token := by
  have hstart : (start (some token)).Gated token := by
    refine Gate.start rfl fun i hi => ?_
    rcases hi with ⟨slot, hslot, -⟩ | ⟨-, hsub⟩
    · cases hslot
    · exact hsub rfl
  exact Machine.run_keeps (fun _ _ _ h hstep => h.step hstep) hstart hrun

end ClientConn

/-! ## The peer port -/

def PeerRequest.Presents (token : Bytes) (f : Option PeerRequest) : Prop :=
  ∃ offered, f = some (.auth offered) ∧ utf8Bytes offered = token

def PeerRequest.Decodable (f : Option PeerRequest) : Prop := ∃ req, f = some req

/-- The loop reads no further frame. -/
def ServePhase.stopped : ServePhase → Bool
  | .reading | .serving _ => false
  | .writing _ last => last
  | .closed => true

def ServeEvent.frame? : ServeEvent → Option (Option PeerRequest)
  | .frame f => some f
  | _ => none

namespace HandleConn

/-- The frame was passed to the consensus layer. -/
def serves (s : HandleConn) (i : Nat) : Prop := ∃ f, s.frames[i]? = some f ∧ f.toRaft = true

/-- The invariant of the gate at a peer connection. -/
def Gated (token : Bytes) (s : HandleConn) : Prop :=
  Gate (PeerRequest.Presents token) PeerRequest.Decodable (s.frames.map PeerFrame.frame) s.serves
    s.authed s.phase.stopped

variable {token : Bytes} {s s' : HandleConn} {e : ServeEvent}

theorem serves_concat {f : PeerFrame} {i : Nat} (hframes : s'.frames = s.frames ++ [f])
    (h : s'.serves i) : s.serves i ∨ (i = s.frames.length ∧ f.toRaft = true) := by
  obtain ⟨g, hg, hraft⟩ := h
  rw [hframes] at hg
  rcases getElem?_concat_eq_some hg with hold | ⟨hi, rfl⟩
  · exact .inl ⟨g, hold, hraft⟩
  · exact .inr ⟨hi, hraft⟩

/-- A frame is read; `hraft` is about the one passed on. -/
theorem Gated.read (h : s.Gated token) (hphase : s.phase = .reading) {f : PeerFrame}
    (hframes : s'.frames = s.frames ++ [f]) (hraft : f.toRaft = true → s.authed = true)
    (hauthed : s'.authed = true → s.authed = true ∨ PeerRequest.Presents token f.frame)
    (hstopped : s.authed = false → PeerRequest.Decodable f.frame →
      ¬PeerRequest.Presents token f.frame → s'.phase.stopped = true) : s'.Gated token := by
  rw [Gated, hphase] at h
  rw [Gated, hframes, List.map_append]
  refine h.frame f.frame (fun i hi => ?_) hauthed hstopped
  rw [List.length_map]
  exact (serves_concat hframes hi).imp_right fun hnew => ⟨hnew.1, hraft hnew.2⟩

theorem Gated.onRpc (h : s.Gated token) (hphase : s.phase = .reading) (req : PeerRequest) :
    (s.onRpc req).Gated token := by
  rw [HandleConn.onRpc]
  by_cases ha : s.authed = true
  · rw [if_pos ha]
    exact h.read hphase rfl (fun _ => ha) .inl fun hn => absurd ha (Bool.eq_false_iff.mp hn)
  · rw [if_neg ha]
    exact h.read hphase rfl (fun hraft => by cases hraft) .inl fun _ _ _ => rfl

theorem Gated.onAuth (h : s.Gated token) (hphase : s.phase = .reading) (offered : String) :
    (s.onAuth (some token) offered).Gated token := by
  have hpresents : secretEq (utf8Bytes offered) token = true ↔
      PeerRequest.Presents token (some (.auth offered)) := by
    rw [secretEq_iff]
    constructor
    · intro heq
      exact ⟨offered, rfl, heq⟩
    · rintro ⟨offered', heq, hbytes⟩
      cases heq
      exact hbytes
  refine h.read hphase rfl (fun hraft => by cases hraft) (fun ha => .inr (hpresents.mp ha))
    fun _ _ hn => ?_
  have hwrong : secretEq (utf8Bytes offered) token = false :=
    Bool.eq_false_iff.mpr fun heq => hn (hpresents.mp heq)
  change (!secretEq (utf8Bytes offered) token) = true
  rw [hwrong]
  rfl

theorem Gated.frame (h : s.Gated token) (hphase : s.phase = .reading) (f : Option PeerRequest) :
    (s.onFrame (some token) f).Gated token := by
  cases f with
  | none =>
      refine h.read hphase rfl (fun hraft => by cases hraft) .inl fun _ hdec => ?_
      obtain ⟨req, hreq⟩ := hdec
      cases hreq
  | some req =>
      cases req with
      | auth offered => exact h.onAuth hphase offered
      | appendEntries r => exact h.onRpc hphase _
      | vote r => exact h.onRpc hphase _
      | installSnapshot r => exact h.onRpc hphase _

/-- A step that reads no frame and keeps `authed`. -/
theorem Gated.moved (h : s.Gated token) (hframes : s'.frames = s.frames)
    (hauthed : s'.authed = s.authed)
    (hstopped : s.phase.stopped = true → s'.phase.stopped = true) : s'.Gated token := by
  rw [Gated, hframes, hauthed]
  refine h.move (fun i hi => ?_) id hstopped
  rwa [serves, hframes] at hi

theorem Gated.step (h : s.Gated token) (hstep : s.step (some token) e = some s') :
    s'.Gated token := by
  cases step_cases hstep with
  | frame hphase => exact h.frame hphase _
  | raft hphase _ => exact h.moved rfl rfl fun hs => by rw [hphase] at hs; cases hs
  | @wrote resp last hphase =>
      refine h.moved rfl rfl fun hs => ?_
      rw [hphase] at hs
      change last = true at hs
      rw [hs]
      rfl
  | failed => exact h.moved rfl rfl fun _ => rfl

theorem run_gated {events : List ServeEvent} (hrun : run (some token) events = some s) :
    s.Gated token := by
  have hstart : (start (some token)).Gated token := by
    refine Gate.start rfl fun i hi => ?_
    obtain ⟨f, hf, -⟩ := hi
    cases hf
  exact Machine.run_keeps (fun _ _ _ h hstep => h.step hstep) hstart hrun

theorem frames_onFrame (token : Option Bytes) (s : HandleConn) (f : Option PeerRequest) :
    (s.onFrame token f).frames.map PeerFrame.frame = s.frames.map PeerFrame.frame ++ [f] := by
  have hrpc : ∀ req, (s.onRpc req).frames.map PeerFrame.frame =
      s.frames.map PeerFrame.frame ++ [some req] := by
    intro req
    rw [onRpc]
    split <;> exact List.map_append
  cases f with
  | none => exact List.map_append
  | some req =>
      cases req with
      | auth offered => exact List.map_append
      | _ => exact hrpc _

theorem frames_step {token : Option Bytes} (hstep : s.step token e = some s') :
    s'.frames.map PeerFrame.frame = s.frames.map PeerFrame.frame ++ e.frame?.toList := by
  cases step_cases hstep with
  | frame _ => exact frames_onFrame token s _
  | _ => exact (List.append_nil _).symm

end HandleConn

/-- The frames that arrive in a run at the peer port. -/
def arrivedFrames (events : List ServeEvent) : List (Option PeerRequest) :=
  events.filterMap ServeEvent.frame?

/-! ## Both ports -/

/-- With a token set, on both ports and in every run: a request passed to
`handle_request`, a subscription, and a request passed to the consensus
layer all have an `Auth` with exactly the token before them. The first
frame that can be decoded, if it is not such an `Auth`, is the last one
the connection reads. Tokens are compared as byte strings, and only equal
ones are accepted. -/
theorem nothing_served_before_token (token : Bytes) :
    (∀ a b : Bytes, secretEq a b = true ↔ a = b) ∧
    (∀ events s, ClientConn.run (some token) events = some s →
      Gated (ClientFrame.Presents token) ClientFrame.Decodable (arrived events) s.serves) ∧
    (∀ events s, HandleConn.run (some token) events = some s →
      Gated (PeerRequest.Presents token) PeerRequest.Decodable (arrivedFrames events) s.serves) := by
  refine ⟨fun a b => secretEq_iff, fun events s hrun => ?_, fun events s hrun => ?_⟩
  · have hframes : s.frames = arrived events := ClientConn.run_frames hrun
    have hgate := (ClientConn.run_gated hrun).gated
    rwa [hframes] at hgate
  · have hframes : s.frames.map PeerFrame.frame = arrivedFrames events :=
      Machine.run_history (X := fun s : HandleConn => s.frames.map PeerFrame.frame)
        (fun _ _ _ hstep => HandleConn.frames_step hstep) hrun
    have hgate := (HandleConn.run_gated hrun).gated
    rwa [hframes] at hgate

/-- The token and a request, at the client port. -/
def authedClient : List ConnEvent :=
  [.frame (.ok ⟨some (.auth "k")⟩), .send, .frame (.ok ⟨some .stats⟩)]

/-- The token and a request, at the peer port. -/
def authedPeer : List ServeEvent :=
  [.frame (some (.auth "k")), .wrote, .frame (some (.vote ⟨⟨⟨1, 2⟩, false⟩, none⟩))]

/-- On both ports the token opens the gate for the next frame. -/
theorem nothing_served_before_token_opened :
    (∃ s, ClientConn.run (some (utf8Bytes "k")) authedClient = some s ∧ s.serves 1 ∧
      ∃ j < 1, ∃ f, (arrived authedClient)[j]? = some f ∧
        ClientFrame.Presents (utf8Bytes "k") f) ∧
    ∃ s, HandleConn.run (some (utf8Bytes "k")) authedPeer = some s ∧ s.serves 1 ∧
      ∃ j < 1, ∃ f, (arrivedFrames authedPeer)[j]? = some f ∧
        PeerRequest.Presents (utf8Bytes "k") f := by
  obtain ⟨-, hclient, hpeer⟩ := nothing_served_before_token (utf8Bytes "k")
  refine ⟨⟨_, rfl, ?_⟩, ⟨_, rfl, ?_⟩⟩
  · refine (fun hserves => ⟨hserves, (hclient authedClient _ rfl).served 1 hserves⟩) ?_
    exact .inl ⟨_, rfl, rfl⟩
  · refine (fun hserves => ⟨hserves, (hpeer authedPeer _ rfl).served 1 hserves⟩) ?_
    exact ⟨_, rfl, rfl⟩

end HermesMq
