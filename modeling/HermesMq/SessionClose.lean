import HermesMq.Subscription

/-!
# What a subscription gives back

A subscription in manual ack mode holds leases: those of the last poll that
it has not come to, and those of the messages it has pushed. When it ends,
because the client is gone, a write times out, a poll fails or the node is
no longer the leader, it aborts its reader and nacks what it holds, so that
other consumers need not wait for the leases to run out. Nothing is left
behind but leases whose time is up long since, and at most one that the
reader had in hand (`closed_session_returns`).
-/

namespace HermesMq

/-! ## The newest lease of an offset -/

/-- No later item of the list has the same offset. -/
def Newest (items : List Delivered) (d : Delivered) : Prop :=
  ∃ pre post, items = pre ++ d :: post ∧ ∀ d' ∈ post, d'.offset ≠ d.offset

theorem Newest.of_append {items more : List Delivered} {d : Delivered}
    (h : Newest (items ++ more) d) :
    d ∈ more ∨ Newest items d ∧ ∀ d' ∈ more, d'.offset ≠ d.offset := by
  obtain ⟨pre, post, hsplit, hpost⟩ := h
  rcases List.append_eq_append_iff.mp hsplit with ⟨mid, rfl, hmore⟩ | ⟨mid, rfl, hrest⟩
  · exact .inl (hmore ▸ List.mem_append_right _ List.mem_cons_self)
  · cases mid with
    | nil =>
        rw [List.nil_append] at hrest
        exact .inl (hrest ▸ List.mem_cons_self)
    | cons x mid =>
        obtain ⟨rfl, rfl⟩ := List.cons_eq_cons.mp hrest
        refine .inr ⟨⟨pre, mid, rfl, fun d' hd' => hpost d' (List.mem_append_left _ hd')⟩,
          fun d' hd' => hpost d' (List.mem_append_right _ hd')⟩

namespace PushSession

/-- The session holds the lease, or has let go of it in order. -/
def Accounted (s : PushSession) (d : Delivered) : Prop :=
  (s.tracking.byOffset.get? d.offset).map (·.leaseId) = some d.leaseId ∨
    d.leaseId ∈ s.sent.map Prod.fst ∨ d.leaseId ∈ s.lapsed ∨
    s.reader.map Prod.fst = some d.leaseId ∨ s.cut = some d.leaseId

structure Ok (s : PushSession) : Prop where
  taken : ∃ taken, s.polled = taken ++ s.waiting ∧ ∀ d, Newest taken d → s.Accounted d
  drained : s.closed = true → s.waiting = [] ∧ s.pushing = none ∧ s.tracking.byOffset = ∅
  polling : ∀ {max}, s.asked = some max → s.closed = false ∧ s.waiting = []
  gone : s.readerGone = true → s.closed = true ∧ s.reader = none
  uncut : s.readerGone = false → s.cut = none

variable {s s' : PushSession} {visibility : Nat}

theorem not_newest_nil (d : Delivered) : ¬Newest [] d := by
  rintro ⟨pre, post, hsplit, -⟩
  cases pre <;> cases hsplit

theorem Ok.empty : Ok {} where
  taken := ⟨[], rfl, fun d hd => absurd hd (not_newest_nil d)⟩
  drained := nofun
  polling h := by cases h
  gone := nofun
  uncut _ := rfl

/-- What is dropped by `live_count` is recorded. -/
theorem Accounted.count {d : Delivered} (h : s.Accounted d) (nowMs visibility : Nat)
    (asked : Option Nat) : (s.count nowMs visibility asked).Accounted d := by
  rcases h with hcurrent | hsent | hlapsed | hrest
  · obtain ⟨track, htrack, hlease⟩ := Option.map_eq_some_iff.mp hcurrent
    by_cases hstale : SubTracking.stale nowMs visibility track = true
    · refine .inr (.inr (.inl (List.mem_append_right _ (List.mem_map.mpr ⟨track, ?_, hlease⟩))))
      refine List.mem_map.mpr ⟨(d.offset, track), OrdMap.get?_eq_some.mp ?_, rfl⟩
      exact OrdMap.get?_filter_eq_some.mpr ⟨htrack, hstale⟩
    · refine .inl (Option.map_eq_some_iff.mpr ⟨track, ?_, hlease⟩)
      exact OrdMap.get?_filter_eq_some.mpr ⟨htrack, by simpa using hstale⟩
  · exact .inr (.inl hsent)
  · exact .inr (.inr (.inl (List.mem_append_left _ hlapsed)))
  · exact .inr (.inr (.inr hrest))

theorem deliver_cases (t : SubTracking) (o : Offset) (l : LeaseId) (d now : Nat) :
    (t.deliver o l d now = (t, .alreadyAcked)) ∨
      (t.deliver o l d now).2 ≠ .alreadyAcked ∧
        ∃ track : OffsetTrack, track.leaseId = l ∧
          (t.deliver o l d now).1.byOffset = t.byOffset.insert o track := by
  have htrack : ∀ t' : SubTracking, t'.byOffset = t.byOffset →
      (t'.trackLease o l d).2 ≠ .alreadyAcked ∧ ∃ track : OffsetTrack, track.leaseId = l ∧
        (t'.trackLease o l d).1.byOffset = t.byOffset.insert o track := by
    intro t' ht'
    rw [SubTracking.trackLease, ← ht']
    cases t'.byOffset.get? o with
    | none => exact ⟨nofun, ⟨l, d, 0, [l]⟩, rfl, rfl⟩
    | some track =>
        refine ⟨?_, track.extend l d, rfl, rfl⟩
        show (if track.refreshable then Delivery.refreshed else .push) ≠ _
        split_ifs <;> exact nofun
  rw [SubTracking.deliver]
  split
  · split_ifs
    · exact .inl rfl
    · exact .inr (htrack _ rfl)
  · exact .inr (htrack _ rfl)

/-- An item goes through the tracking: it is acked at once, or its lease is
the one that the tracking has for the offset. -/
inductive Took (s : PushSession) (d : Delivered) : PushSession → Prop
  | acked : Took s d { s with sent := s.sent ++ [(d.leaseId, false)] }
  | tracked {tracking : SubTracking} {track : OffsetTrack} (pushing : Option Delivered)
      (pushed : List LeaseId) (hlease : track.leaseId = d.leaseId)
      (htracking : tracking.byOffset = s.tracking.byOffset.insert d.offset track) :
      Took s d { s with tracking := tracking, pushing := pushing, pushed := pushed }

theorem deliverItem_took (s : PushSession) (d : Delivered) (nowMs visibility : Nat) :
    Took s d (s.deliverItem d nowMs visibility) := by
  rcases deliver_cases s.tracking d.offset d.leaseId (satAdd nowMs visibility) nowMs with
    hacked | ⟨hpush, track, hlease, htracking⟩
  · rw [deliverItem, hacked]
    exact .acked
  · rcases hdeliver : s.tracking.deliver d.offset d.leaseId (satAdd nowMs visibility) nowMs with
      ⟨tracking, delivery⟩
    rw [hdeliver] at hpush htracking
    rw [deliverItem, hdeliver]
    cases delivery with
    | alreadyAcked => exact absurd rfl hpush
    | refreshed => exact .tracked s.pushing s.pushed hlease htracking
    | push => exact .tracked (some d) (s.pushed ++ [d.leaseId]) hlease htracking

theorem Took.accounted_self {d : Delivered} (h : Took s d s') : s'.Accounted d := by
  cases h with
  | acked => exact .inr (.inl (by simp))
  | tracked pushing pushed hlease htracking =>
      refine .inl ?_
      rw [htracking, OrdMap.get?_insert_self, Option.map_some, hlease]

theorem Took.accounted {d d' : Delivered} (h : Took s d s') (hne : d.offset ≠ d'.offset)
    (hd : s.Accounted d') : s'.Accounted d' := by
  cases h with
  | acked => exact hd.imp_right (Or.imp_left fun hsent => by simp [hsent])
  | tracked pushing pushed hlease htracking =>
      refine hd.imp_left fun hcurrent => ?_
      rw [htracking, OrdMap.get?_insert_ne _ _ (Ne.symm hne)]
      exact hcurrent

/-- Jobs that are sent, and a change of what the reader has in hand. -/
theorem Accounted.sent {d : Delivered} (h : s.Accounted d) {jobs : List (LeaseId × Bool)}
    {reader : Option (LeaseId × Bool)} (hreader : ∀ job, s.reader = some job →
      job ∈ jobs ∨ reader.map Prod.fst = some job.1) :
    Accounted { s with sent := s.sent ++ jobs, reader := reader } d := by
  rcases h with hcurrent | hsent | hlapsed | hhand | hcut
  · exact .inl hcurrent
  · exact .inr (.inl (by rw [List.map_append]; exact List.mem_append_left _ hsent))
  · exact .inr (.inr (.inl hlapsed))
  · obtain ⟨job, hjob, hlease⟩ := Option.map_eq_some_iff.mp hhand
    rcases hreader job hjob with hmem | hstill
    · refine .inr (.inl ?_)
      rw [List.map_append, ← hlease]
      exact List.mem_append_right _ (List.mem_map_of_mem hmem)
    · exact .inr (.inr (.inr (.inl (hlease ▸ hstill))))
  · exact .inr (.inr (.inr (.inr hcut)))

theorem Ok.count (h : s.Ok) {nowMs : Nat} {asked : Option Nat} (htop : s.AtTop) :
    (s.count nowMs visibility asked).Ok where
  taken := by
    obtain ⟨taken, hpolled, haccounted⟩ := h.taken
    exact ⟨taken, hpolled, fun d hd => (haccounted d hd).count nowMs visibility asked⟩
  drained hclosed := Bool.noConfusion (htop.1.symm.trans hclosed)
  polling _ := ⟨htop.1, htop.2.2.1⟩
  gone := h.gone
  uncut := h.uncut

theorem Ok.answer (h : s.Ok) {max : Nat} (hasked : s.asked = some max) (items : List Delivered) :
    (s.answer items).Ok where
  taken := by
    obtain ⟨taken, hpolled, haccounted⟩ := h.taken
    refine ⟨taken, ?_, haccounted⟩
    rw [(h.polling hasked).2, List.append_nil] at hpolled
    rw [PushSession.answer, hpolled]
  drained hclosed := Bool.noConfusion ((h.polling hasked).1.symm.trans hclosed)
  polling hasked' := by cases hasked'
  gone := h.gone
  uncut := h.uncut

theorem Ok.deliver (h : s.Ok) {d : Delivered} {rest : List Delivered}
    (hwaiting : s.waiting = d :: rest) (htook : Took { s with waiting := rest } d s') : s'.Ok := by
  obtain ⟨taken, hpolled, haccounted⟩ := h.taken
  have hopen : ¬s.closed = true := by
    intro hclosed
    rw [(h.drained hclosed).1] at hwaiting
    cases hwaiting
  have htaken : ∀ d', Newest (taken ++ [d]) d' → s'.Accounted d' := by
    intro d' hd'
    rcases hd'.of_append with hmem | ⟨hnewest, hne⟩
    · cases List.mem_singleton.mp hmem
      exact htook.accounted_self
    · exact htook.accounted (hne d (List.mem_singleton_self d)) (haccounted d' hnewest)
  have hsplit : s.polled = (taken ++ [d]) ++ rest := by
    rw [hpolled, hwaiting, List.append_assoc, List.singleton_append]
  have hasked : ∀ {max}, s.asked = some max → s.closed = false ∧ rest = [] := by
    intro max hasked
    rw [(h.polling hasked).2] at hwaiting
    cases hwaiting
  cases htook with
  | acked =>
      exact ⟨⟨_, hsplit, htaken⟩, fun hclosed => absurd hclosed hopen, hasked, h.gone, h.uncut⟩
  | tracked pushing pushed hlease htracking =>
      exact ⟨⟨_, hsplit, htaken⟩, fun hclosed => absurd hclosed hopen, hasked, h.gone, h.uncut⟩

/-- The reader takes a lease out of the tracking only to have it in hand. -/
theorem Accounted.read {d : Delivered} (h : s.Accounted d) (hreader : s.reader = none)
    (leaseId : LeaseId) (nack : Bool) (nowMs : Nat) :
    (s.read leaseId nack nowMs).Accounted d := by
  rcases s.tracking.resolve_cases leaseId (if nack then none else some (satAdd nowMs ackGraceMs))
    with hsame | ⟨o, track, -, htrack, hresolve⟩
  · rw [PushSession.read, hsame]
    rcases h with hcurrent | hsent | hlapsed | hhand | hcut
    · exact .inl hcurrent
    · exact .inr (.inl hsent)
    · exact .inr (.inr (.inl hlapsed))
    · rw [hreader] at hhand
      cases hhand
    · exact .inr (.inr (.inr (.inr hcut)))
  · rw [PushSession.read, hresolve]
    rcases h with hcurrent | hsent | hlapsed | hhand | hcut
    · by_cases hoffset : d.offset = o
      · rw [hoffset, htrack] at hcurrent
        exact .inr (.inr (.inr (.inl hcurrent)))
      · refine .inl ?_
        rw [OrdMap.get?_erase, if_neg hoffset]
        exact hcurrent
    · exact .inr (.inl hsent)
    · exact .inr (.inr (.inl hlapsed))
    · rw [hreader] at hhand
      cases hhand
    · exact .inr (.inr (.inr (.inr hcut)))

theorem read_byOffset_empty (h : s.tracking.byOffset = ∅) (leaseId : LeaseId) (nack : Bool)
    (nowMs : Nat) : (s.read leaseId nack nowMs).tracking.byOffset = ∅ := by
  rcases s.tracking.resolve_cases leaseId (if nack then none else some (satAdd nowMs ackGraceMs))
    with hsame | ⟨o, track, -, htrack, -⟩
  · rw [PushSession.read, hsame]
    exact h
  · rw [h] at htrack
    cases htrack

theorem Ok.read (h : s.Ok) {leaseId : LeaseId} {nack : Bool} {nowMs : Nat}
    (hgone : s.readerGone = false) (hreader : s.reader = none) :
    (s.read leaseId nack nowMs).Ok where
  taken := by
    obtain ⟨taken, hpolled, haccounted⟩ := h.taken
    exact ⟨taken, hpolled, fun d hd => (haccounted d hd).read hreader leaseId nack nowMs⟩
  drained hclosed := by
    obtain ⟨hwaiting, hpushing, hempty⟩ := h.drained hclosed
    exact ⟨hwaiting, hpushing, read_byOffset_empty hempty leaseId nack nowMs⟩
  polling := h.polling
  gone hg := by
    rw [show s.readerGone = true from hg] at hgone
    cases hgone
  uncut := h.uncut

theorem Ok.send (h : s.Ok) {job : LeaseId × Bool} (hreader : s.reader = some job) :
    Ok { s with sent := s.sent ++ [job], reader := none } where
  taken := by
    obtain ⟨taken, hpolled, haccounted⟩ := h.taken
    refine ⟨taken, hpolled, fun d hd => (haccounted d hd).sent fun job' hjob' => .inl ?_⟩
    rw [hreader] at hjob'
    exact Option.some.inj hjob' ▸ List.mem_singleton_self job
  drained := h.drained
  polling := h.polling
  gone hgone := ⟨(h.gone hgone).1, rfl⟩
  uncut := h.uncut

theorem Ok.pushed (h : s.Ok) : Ok { s with pushing := none } where
  taken := h.taken
  drained hclosed := by
    obtain ⟨hwaiting, -, hempty⟩ := h.drained hclosed
    exact ⟨hwaiting, rfl, hempty⟩
  polling := h.polling
  gone := h.gone
  uncut := h.uncut

/-- What the session has not come to and what it tracks is nacked, newest
lease by newest lease. -/
theorem Ok.finish (h : s.Ok) : s.finish.Ok where
  taken := by
    obtain ⟨taken, hpolled, haccounted⟩ := h.taken
    refine ⟨s.polled, (List.append_nil _).symm, fun d hd => ?_⟩
    rw [hpolled] at hd
    have hnacked : d.leaseId ∈ s.waiting.map (·.leaseId) ++ s.tracking.drainLeases.2 →
        s.finish.Accounted d := by
      intro hmem
      refine .inr (.inl ?_)
      rw [PushSession.finish, List.map_append, List.map_map]
      exact List.mem_append_right _ (List.mem_map.mpr ⟨_, hmem, rfl⟩)
    rcases hd.of_append with hmem | ⟨hnewest, -⟩
    · exact hnacked (List.mem_append_left _ (List.mem_map_of_mem hmem))
    rcases haccounted d hnewest with hcurrent | hrest
    · obtain ⟨track, htrack, hlease⟩ := Option.map_eq_some_iff.mp hcurrent
      refine hnacked (List.mem_append_right _ (List.mem_map.mpr ⟨track, ?_, hlease⟩))
      exact OrdMap.mem_values.mpr ⟨_, htrack⟩
    · refine .inr (hrest.imp_left fun hsent => ?_)
      rw [PushSession.finish, List.map_append]
      exact List.mem_append_left _ hsent
  drained _ := ⟨rfl, rfl, rfl⟩
  polling hasked := by cases hasked
  gone hgone := ⟨rfl, (h.gone hgone).2⟩
  uncut := h.uncut

theorem Ok.abort (h : s.Ok) (hclosed : s.closed = true) (hgone : s.readerGone = false) :
    Ok { s with readerGone := true, reader := none, cut := s.reader.map Prod.fst } where
  taken := by
    obtain ⟨taken, hpolled, haccounted⟩ := h.taken
    refine ⟨taken, hpolled, fun d hd => ?_⟩
    rcases haccounted d hd with hcurrent | hsent | hlapsed | hhand | hcut
    · exact .inl hcurrent
    · exact .inr (.inl hsent)
    · exact .inr (.inr (.inl hlapsed))
    · exact .inr (.inr (.inr (.inr hhand)))
    · rw [h.uncut hgone] at hcut
      cases hcut
  drained := h.drained
  polling := h.polling
  gone _ := ⟨hclosed, rfl⟩
  uncut := nofun

theorem Ok.step {e : PushEvent} (h : s.Ok) (hs : step visibility s e = some s') : s'.Ok := by
  cases step_cases hs with
  | count htop => exact h.count htop
  | answer hasked => exact h.answer hasked _
  | pollFailed hasked => exact h.finish
  | deliver hwaiting hpushing => exact h.deliver hwaiting (deliverItem_took ..)
  | pushed hpushing => exact h.pushed
  | pushFailed hpushing => exact h.finish
  | read hgone hreader => exact h.read hgone hreader
  | send hreader => exact h.send hreader
  | close htop => exact h.finish
  | abort hclosed hgone => exact h.abort hclosed hgone

theorem run_ok {events : List PushEvent} (hrun : run visibility events = some s) : s.Ok :=
  Machine.run_keeps (P := Ok) (fun _ _ _ h hs => h.step hs) Ok.empty hrun

theorem Ok.returns (h : s.Ok) (hclosed : s.closed = true) (hgone : s.readerGone = true)
    {d : Delivered} (hd : Newest s.polled d) :
    d.leaseId ∈ s.sent.map Prod.fst ∨ d.leaseId ∈ s.lapsed ∨ s.cut = some d.leaseId := by
  obtain ⟨taken, hpolled, haccounted⟩ := h.taken
  obtain ⟨hwaiting, -, hempty⟩ := h.drained hclosed
  rw [hpolled, hwaiting, List.append_nil] at hd
  rcases haccounted d hd with hcurrent | hsent | hlapsed | hhand | hcut
  · rw [hempty] at hcurrent
    cases hcurrent
  · exact .inl hsent
  · exact .inr (.inl hlapsed)
  · rw [(h.gone hgone).2] at hhand
    cases hhand
  · exact .inr (.inr hcut)

/-- Once the session is over and its reader has stopped, the newest lease of
every offset that its polls brought was given to the ack batcher, ran out
long ago, or is the one job that stopping the reader lost. -/
theorem closed_session_returns {events : List PushEvent} {d : Delivered}
    (hrun : run visibility events = some s) (hclosed : s.closed = true)
    (hgone : s.readerGone = true) (hd : Newest s.polled d) :
    d.leaseId ∈ s.sent.map Prod.fst ∨ d.leaseId ∈ s.lapsed ∨ s.cut = some d.leaseId :=
  (run_ok hrun).returns hclosed hgone hd

/-- A message is pushed and acked, and the write of the next one fails while
the reader waits for room in the channel. -/
theorem closed_session_returns_cut :
    ∃ s, run 30000 [.count 1000 (some 4), .answer [⟨1, 0, .default, .raw, [7], 900⟩,
          ⟨2, 1, .default, .raw, [8], 950⟩, ⟨3, 2, .default, .raw, [9], 970⟩], .deliver 1000,
        .push true, .deliver 1001, .read 1 false 1001, .push false, .abort] = some s ∧
      s.sent = [(3, true), (2, true)] ∧ s.cut = some 1 ∧
      ((3 : LeaseId) ∈ s.sent.map Prod.fst ∨ (3 : LeaseId) ∈ s.lapsed ∨ s.cut = some 3) := by
  have hrun : run 30000 [.count 1000 (some 4), .answer [⟨1, 0, .default, .raw, [7], 900⟩,
      ⟨2, 1, .default, .raw, [8], 950⟩, ⟨3, 2, .default, .raw, [9], 970⟩],
    .deliver 1000, .push true, .deliver 1001, .read 1 false 1001, .push false, .abort] =
      some _ := rfl
  exact ⟨_, hrun, rfl, rfl, closed_session_returns hrun rfl rfl
    ⟨[⟨1, 0, .default, .raw, [7], 900⟩, ⟨2, 1, .default, .raw, [8], 950⟩], [], rfl, nofun⟩⟩

end PushSession

/-- So does a session next to its queue, whatever else the queue is asked
in the meantime. -/
theorem Session.closed_returns {cfg : SubConfig} {q : Queue} {events : List SessionEvent}
    {s : Session} (hrun : Session.run cfg { queue := q } events = some s)
    (hclosed : s.push.closed = true) (hgone : s.push.readerGone = true) {d : Delivered}
    (hd : Newest s.push.polled d) :
    d.leaseId ∈ s.push.sent.map Prod.fst ∨ d.leaseId ∈ s.push.lapsed ∨
      s.push.cut = some d.leaseId := by
  obtain ⟨own, hown⟩ := Session.run_push hrun
  exact (PushSession.run_ok hown).returns hclosed hgone hd

end HermesMq
