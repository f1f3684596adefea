import HermesMq.SelectionReference
import HermesMq.Subscription

/-!
# The prefetch window

A manual subscription counts the offsets its client still works on once
per round, and asks for the rest of its prefetch window. Until the messages
are through the tracking, the client acks and nacks, and the clock runs on.
The client may send frames for any lease id.

Offsets still worked on, messages on their way through the tracking and
messages asked for fit into the window together (`InWindow`), and stay so:
a delivery turns one waiting message into at most one more live offset.
-/

namespace HermesMq

/-- The tracked offsets whose deadline is later than `nowMs`. -/
def SubTracking.live (s : SubTracking) (nowMs : Nat) : Nat :=
  s.byOffset.values.countP fun track => track.deadlineMs > nowMs

namespace SubTracking

variable (s : SubTracking)

theorem live_mono {now now' : Nat} (h : now ≤ now') : s.live now' ≤ s.live now :=
  List.countP_mono_left fun _ _ hlive =>
    decide_eq_true (h.trans_lt (of_decide_eq_true hlive))

theorem live_trackLease_le (o : Offset) (l : LeaseId) (d now : Nat) :
    (s.trackLease o l d).1.live now ≤ s.live now + 1 := by
  unfold trackLease
  split <;> exact OrdMap.countP_values_insert_le ..

theorem live_deliver_le (o : Offset) (l : LeaseId) (d at_ now : Nat) :
    (s.deliver o l d at_).1.live now ≤ s.live now + 1 := by
  unfold deliver
  split
  · split_ifs
    · exact Nat.le_succ _
    · exact live_trackLease_le _ o l d now
  · exact live_trackLease_le s o l d now

theorem live_resolve_le (l : LeaseId) (u : Option Nat) (now : Nat) :
    (s.resolve l u).1.live now ≤ s.live now := by
  rcases s.resolve_cases l u with heq | ⟨o, track, -, -, heq⟩
  · rw [heq]
  · rw [heq]
    exact OrdMap.countP_values_erase_le ..

theorem live_liveCount_le (at_ grace now : Nat) :
    (s.liveCount at_ grace).1.live now ≤ s.live now :=
  OrdMap.countP_values_filter_le ..

/-- The count is of the offsets live in what it leaves. -/
theorem liveCount_snd (now grace : Nat) :
    (s.liveCount now grace).2 = (s.liveCount now grace).1.live now := rfl

end SubTracking

/-! ## The window -/

namespace Session

/-- What is live, waiting and asked for fits into the window, from the last
count on. -/
def InWindow (cfg : SubConfig) (s : Session) : Prop :=
  ∀ now, s.push.clock ≤ now →
    s.push.tracking.live now + s.push.waiting.length + s.push.asked.getD 0 ≤ cfg.prefetch

variable {cfg : SubConfig} {s : Session}

theorem inWindow_start (q : Queue) : InWindow cfg { queue := q } :=
  fun _ _ => Nat.zero_le _

/-- A count asks for no more than the rest of the window. -/
theorem asks_le (cfg : SubConfig) (s : Session) (nowMs gateMs : Nat) (limit : Option Nat) :
    (s.asks cfg nowMs gateMs limit).getD 0 ≤
      cfg.prefetch - (s.push.tracking.liveCount nowMs cfg.visibility).2 := by
  simp only [asks]
  split_ifs
  · cases limit with
    | none => exact Nat.zero_le _
    | some limit => exact Nat.min_le_right ..
  · exact Nat.zero_le _

theorem InWindow.count (h : InWindow cfg s) (htop : s.push.AtTop) (nowMs gateMs : Nat)
    (limit : Option Nat) : InWindow cfg { s with
      push := s.push.count nowMs cfg.visibility (s.asks cfg nowMs gateMs limit) } := by
  intro now hnow
  obtain ⟨hclock, hlater⟩ := max_le_iff.mp hnow
  simp only [PushSession.count, htop.2.2.1, List.length_nil]
  have hold := h now hclock
  have hkept := s.push.tracking.live_liveCount_le nowMs cfg.visibility now
  have hcur : (s.push.tracking.liveCount nowMs cfg.visibility).1.live now ≤
      (s.push.tracking.liveCount nowMs cfg.visibility).2 :=
    (SubTracking.live_mono _ hlater).trans_eq (SubTracking.liveCount_snd ..).symm
  have hasked := asks_le cfg s nowMs gateMs limit
  omega

theorem poll_waiting_length_le (cfg : SubConfig) (s : Session) (max tsMs : Nat) :
    (s.poll cfg max tsMs).push.waiting.length ≤ max := by
  show (s.queue.apply (.poll cfg.topic cfg.group max cfg.visibility tsMs)).2.delivered.length ≤ max
  cases hok : checkConsumer cfg.topic cfg.group with
  | error reason => simp [Queue.apply, hok, AppResponse.delivered]
  | ok =>
      rw [Queue.apply_poll hok]
      exact poll_length_le ..

theorem InWindow.poll (h : InWindow cfg s) {max : Nat} (hasked : s.push.asked = some max)
    (tsMs : Nat) : InWindow cfg (s.poll cfg max tsMs) := by
  intro now hnow
  have hold := h now hnow
  rw [hasked, Option.getD_some] at hold
  have hlength := poll_waiting_length_le cfg s max tsMs
  have hlive : (s.poll cfg max tsMs).push.tracking = s.push.tracking := rfl
  have hasked' : (s.poll cfg max tsMs).push.asked = none := rfl
  rw [hlive, hasked', Option.getD_none]
  omega

/-- A delivery takes one message from those waiting. -/
theorem deliverItem_live_le (s : PushSession) (d : Delivered) (at_ visibility now : Nat) :
    (s.deliverItem d at_ visibility).tracking.live now ≤ s.tracking.live now + 1 := by
  have hlive := s.tracking.live_deliver_le d.offset d.leaseId (satAdd at_ visibility) at_ now
  simp only [PushSession.deliverItem]
  split <;> exact hlive

theorem deliverItem_frame (s : PushSession) (d : Delivered) (at_ visibility : Nat) :
    (s.deliverItem d at_ visibility).waiting = s.waiting ∧
      (s.deliverItem d at_ visibility).asked = s.asked ∧
      (s.deliverItem d at_ visibility).clock = s.clock := by
  simp only [PushSession.deliverItem]
  split <;> exact ⟨rfl, rfl, rfl⟩

/-- What the loop and its reader do between counts and answers never adds to
what is live and waiting. -/
theorem InWindow.own (h : InWindow cfg s) {e : PushEvent} {push : PushSession}
    (hpolls : e.polls = false) (hstep : PushStep cfg.visibility s.push e push) :
    InWindow cfg { s with push := push } := by
  cases hstep with
  | count htop => cases hpolls
  | answer hasked => cases hpolls
  | @deliver at_ d rest hwaiting hpushing =>
      intro now hnow
      have hlive := deliverItem_live_le { s.push with waiting := rest } d at_ cfg.visibility now
      obtain ⟨hrest, hasked, hclock⟩ :=
        deliverItem_frame { s.push with waiting := rest } d at_ cfg.visibility
      simp only [hclock] at hnow
      have hold := h now hnow
      rw [hwaiting, List.length_cons] at hold
      simp only [hrest, hasked]
      simp only at hlive
      omega
  | pushed hpushing => exact h
  | read hgone hreader =>
      intro now hnow
      have hlive := s.push.tracking.live_resolve_le
      exact (Nat.add_le_add_right (Nat.add_le_add_right (hlive ..) _) _).trans (h now hnow)
  | send hreader => exact h
  | abort hclosed hgone => exact h
  | pollFailed hasked => exact fun now _ => Nat.zero_le _
  | pushFailed hpushing => exact fun now _ => Nat.zero_le _
  | close htop => exact fun now _ => Nat.zero_le _

theorem InWindow.step (h : InWindow cfg s) {e : SessionEvent} {s' : Session}
    (hstep : s.step cfg e = some s') : InWindow cfg s' := by
  cases step_cases hstep with
  | other req => exact h
  | count hpush =>
      cases hpush with
      | count htop => exact h.count htop _ _ _
  | poll hasked => exact h.poll hasked _
  | own hpolls hpush => exact h.own hpolls hpush

end Session

/-- At every point of a session, no more than `prefetch` tracked offsets
have a deadline later than the current time, if that is not before the
last count. -/
theorem prefetch_respected (cfg : SubConfig) (q : Queue) {events : List SessionEvent}
    {s : Session} (hrun : Session.run cfg { queue := q } events = some s) {now : Nat}
    (hnow : s.push.clock ≤ now) : s.push.tracking.live now ≤ cfg.prefetch := by
  have hwindow : s.InWindow cfg :=
    Machine.run_keeps (fun _ _ _ h hstep => h.step hstep) (Session.inWindow_start q) hrun
  have hfits := hwindow now hnow
  omega

/-- Two messages, a window of one: one is asked for, pushed and acked, then
the other, while the first one's frame is repeated. -/
def windowOfOne : List SessionEvent :=
  [.other plainProduce, .other plainProduce, .count 1 1 (some 4), .poll 1, .own (.deliver 2),
    .own (.push true), .count 3 3 (some 4), .own (.read 0 false 4), .own .send, .count 5 5 none,
    .count 6 6 (some 4), .own (.read 0 false 6), .poll 6, .own (.deliver 7)]

theorem prefetch_respected_window_of_one :
    ∃ s, Session.run ⟨"t", "g", 1, 10⟩ { queue := {} } windowOfOne = some s ∧
      s.push.clock = 6 ∧ s.push.tracking.live 7 ≤ 1 := by
  obtain ⟨s, hrun⟩ : ∃ s, Session.run ⟨"t", "g", 1, 10⟩ { queue := {} } windowOfOne = some s :=
    ⟨_, rfl⟩
  have hclock : (Session.run ⟨"t", "g", 1, 10⟩ { queue := {} } windowOfOne).map (·.push.clock) =
      some 6 := by
    decide
  rw [hrun] at hclock
  have hsix : s.push.clock = 6 := Option.some.inj hclock
  exact ⟨s, hrun, hsix, prefetch_respected ⟨"t", "g", 1, 10⟩ {} hrun (by rw [hsix]; decide)⟩

end HermesMq
