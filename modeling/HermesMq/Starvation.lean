import HermesMq.SelectionReference

/-!
# The oldest message is served

A poll fills most of its slots by priority, so a low priority could wait
for ever. A quarter of the slots is reserved for the earliest messages,
and every fourth poll reserves one more. A poll with a reserved slot hands
out the oldest message it could (`oldest_mem_choose`), a poll of four or
more always has one, and of four polls in a row one has the extra slot:
the poll counter of the group moves by exactly one from each to the next
(`counts_next`).

The oldest is meant among the messages the group has not been given
(`eligible`). With the lease counter run out one of them can be stuck
behind a lease that nothing expires, and then no poll brings it
(`stuck_behind_shared_lease`).
-/

namespace HermesMq

/-! ## A reserved slot goes to the oldest candidate -/

/-- With a slot left over by the priority slots, the first candidate is
selected. -/
theorem head_mem_selection {x : Ranked} {rest : List Ranked} {max slots : Nat}
    (hslots : slots < max) : x.2 ∈ offsets (selection (x :: rest) max slots) := by
  rw [selection, offsets, List.map_append]
  have hfew : (((x :: rest).insertionSort deliveryLe).take slots).length ≤ slots :=
    (List.length_take ..).trans_le (Nat.min_le_left ..)
  by_cases hx : x.2 ∈ offsets (((x :: rest).insertionSort deliveryLe).take slots)
  · exact List.mem_append_left _ hx
  · obtain ⟨k, hk⟩ : ∃ k, max - (((x :: rest).insertionSort deliveryLe).take slots).length =
        k + 1 := ⟨_, (Nat.succ_pred_eq_of_pos (by omega)).symm⟩
    refine List.mem_append_right _ ?_
    rw [List.filter_cons_of_pos (by simpa using hx), hk, List.take_succ_cons]
    exact List.mem_cons_self

theorem candidates_sorted (messages : OrdMap Offset Message) (g : GroupState) :
    (candidates messages g).Pairwise fun a b => a.2 < b.2 := by
  rw [candidates, List.pairwise_map]
  exact (messages.splitOff g.ackWatermark).sorted.filter _

theorem oldest_mem_choose {messages : OrdMap Offset Message} {g : GroupState} {o : Offset}
    {max pollCount : Nat} (hslots : prioritySlots max pollCount < max)
    (ho : o ∈ offsets (candidates messages g))
    (holdest : ∀ o' ∈ offsets (candidates messages g), o ≤ o') :
    o ∈ offsets (choose messages g max pollCount) := by
  rw [choose_eq]
  refine ((List.perm_insertionSort deliveryLe _).map Prod.snd).mem_iff.mpr ?_
  have hsorted := candidates_sorted messages g
  generalize candidates messages g = c at ho holdest hsorted ⊢
  cases c with
  | nil => cases ho
  | cons x rest =>
      -- the first candidate has the least offset, and so is the oldest
      have hle : x.2 ≤ o := by
        rcases List.mem_cons.mp ho with rfl | hmem
        · exact le_rfl
        · obtain ⟨y, hy, rfl⟩ := List.mem_map.mp hmem
          exact (List.rel_of_pairwise_cons hsorted hy).le
      obtain rfl : o = x.2 := le_antisymm (holdest _ List.mem_cons_self) hle
      exact head_mem_selection hslots

/-- A poll of four or more, and every fourth poll, reserves a slot. -/
theorem prioritySlots_lt {max pollCount : Nat} (hmax : 1 ≤ max)
    (hslot : 4 ≤ max ∨ (pollCount + 1) % 4 = 0) : prioritySlots max pollCount < max := by
  rw [prioritySlots, reservedDen]
  split_ifs with hbonus
  · omega
  · omega

/-! ## Polls of one group -/

/-- A `Poll` or `PollAuto` of some group. -/
structure GroupPoll where
  auto : Bool
  max : Nat
  visibilityTimeoutMs : Nat
  tsMs : Nat

def GroupPoll.request (p : GroupPoll) (τ : TopicId) (γ : GroupId) : AppRequest :=
  if p.auto then .pollAuto τ γ p.max p.visibilityTimeoutMs p.tsMs
  else .poll τ γ p.max p.visibilityTimeoutMs p.tsMs

/-- The group a poll at `ts` works on: the one the sweep leaves, or a fresh
one. -/
def Queue.Entered (q : Queue) (τ : TopicId) (γ : GroupId) (ts : Nat) (t : TopicState)
    (g₀ : GroupState) : Prop :=
  checkConsumer τ γ = .ok () ∧ q.topics.get? τ = some t ∧
    groupEntry (sweepAndReclaim t ts) γ (some ts) = some g₀

/-- At `ts` the group has neither acked message `o` nor an unexpired lease
of it. -/
def Queue.DeliverableAt (q : Queue) (τ : TopicId) (γ : GroupId) (ts : Nat) (o : Offset) : Prop :=
  ∃ t g₀, q.Entered τ γ ts t g₀ ∧ o ∈ offsets (eligible (sweepAndReclaim t ts).messages g₀ ts)

/-- If anything is deliverable to the group, the poll hands out the oldest
such message. -/
def Queue.ServesOldest (q : Queue) (τ : TopicId) (γ : GroupId) (p : GroupPoll) : Prop :=
  (∃ o, q.DeliverableAt τ γ p.tsMs o) →
    ∃ x ∈ (q.apply (p.request τ γ)).2.delivered, q.DeliverableAt τ γ p.tsMs x.offset ∧
      ∀ o, q.DeliverableAt τ γ p.tsMs o → x.offset ≤ o

section Polls

variable {q : Queue} {τ : TopicId} {γ : GroupId} {p : GroupPoll} {t : TopicState} {c : Nat}

/-- The request polls; whatever a `PollAuto` does besides is acking. -/
theorem apply_groupPoll (hok : checkConsumer τ γ = .ok ()) :
    (q.apply (p.request τ γ)).2 = .polled (q.poll τ γ p.max p.visibilityTimeoutMs p.tsMs).2 ∧
      ∃ ids, Steps (.ackMany τ γ ids) (q.poll τ γ p.max p.visibilityTimeoutMs p.tsMs).1
        (q.apply (p.request τ γ)).1 := by
  unfold GroupPoll.request
  split
  · exact Queue.apply_pollAuto hok ..
  · rw [Queue.apply_poll hok]
    exact ⟨rfl, [], Relation.ReflTransGen.refl⟩

theorem Queue.Entered.unique {ts : Nat} {t' : TopicState} {g₀ g₀' : GroupState}
    (h : q.Entered τ γ ts t g₀) (h' : q.Entered τ γ ts t' g₀') : t' = t ∧ g₀' = g₀ := by
  obtain ⟨-, ht, hentry⟩ := h
  obtain ⟨-, ht', hentry'⟩ := h'
  obtain rfl := Option.some.inj (ht'.symm.trans ht)
  exact ⟨rfl, Option.some.inj (hentry'.symm.trans hentry)⟩

/-- A poll with a reserved slot serves the oldest message, as long as the
lease counter has not run out. -/
theorem servesOldest_of_slot {reqs : List AppRequest}
    (hcounter : (({} : Queue).run reqs).nextLeaseId < u64Max)
    (hslot : ∀ t g₀, (({} : Queue).run reqs).Entered τ γ p.tsMs t g₀ →
      prioritySlots p.max g₀.pollCount < p.max) : (({} : Queue).run reqs).ServesOldest τ γ p := by
  classical
  rintro ⟨o, hany⟩
  -- of the deliverable messages, take the one with the least offset
  have hex : ∃ o, (({} : Queue).run reqs).DeliverableAt τ γ p.tsMs o := ⟨o, hany⟩
  obtain ⟨t, g₀, henter, hdel⟩ := Nat.find_spec hex
  have holdest : ∀ o' ∈ offsets (eligible (sweepAndReclaim t p.tsMs).messages g₀ p.tsMs),
      Nat.find hex ≤ o' := fun o' ho' => Nat.find_min' hex ⟨t, g₀, henter, ho'⟩
  rw [run_eligible hcounter henter.2.1 henter.2.2] at hdel holdest
  have hchosen := oldest_mem_choose (hslot t g₀ henter) hdel holdest
  rw [← poll_offsets p.max p.visibilityTimeoutMs p.tsMs henter.2.1 henter.2.2] at hchosen
  obtain ⟨x, hx, hoffset⟩ := List.mem_map.mp hchosen
  refine ⟨x, ?_, ?_⟩
  · rw [(apply_groupPoll henter.1).1]
    exact hx
  · rw [hoffset]
    exact ⟨Nat.find_spec hex, fun o' ho' => Nat.find_min' hex ho'⟩

/-! ## The poll counter -/

/-- The group, if it is there, has been polled `c` times. -/
def Queue.Counts (τ : TopicId) (γ : GroupId) (c : Nat) (q : Queue) : Prop :=
  ∀ t g, q.topics.get? τ = some t → t.groups.get? γ = some g → g.pollCount = c

/-- Only the start of a poll moves the counter. -/
theorem GroupStep.pollCount {g g' : GroupState} {op : TopicOp} (h : GroupStep t γ g op g')
    (hpoll : ∀ ts, op ≠ .beginPoll γ ts) : g'.pollCount = g.pollCount := by
  cases h with
  | same | lease id o d => rfl
  | purge now => exact GroupState.advanceWatermark_pollCount ..
  | sweep now => exact GroupState.stamp_pollCount ..
  | beginPoll ts => exact absurd rfl (hpoll ts)
  | ack id => exact GroupState.ackLease_pollCount ..
  | nack id => exact (GroupState.sameButLeases_removeLease g id).pollCount
  | commit upto now =>
      exact (GroupState.touch_pollCount ..).trans (GroupState.advanceWatermark_pollCount ..)

/-- A request that is no consumer request of the group leaves its counter
alone. -/
theorem Steps.counts {req : AppRequest} (hreq : req.consumerClock? τ γ = none) {q' : Queue}
    (h : Steps req q q') (hq : q.Counts τ γ c) : q'.Counts τ γ c := by
  have hnopoll : ∀ p, req.pollOf? τ γ ≠ some p := by
    rintro ⟨ts, d⟩ hpoll
    rw [AppRequest.consumerClock?_of_pollOf? hpoll] at hreq
    cases hreq
  refine h.invariant (fun q op hallow hpre hq => ?_) hq
  intro t' g' ht' hg'
  cases op with
  | create σ =>
      rw [QueueOp.run, Queue.putTopic_topics] at ht'
      split_ifs at ht' with hσ
      · obtain rfl := Option.some.inj ht'
        cases hg'
      · exact hq t' g' ht' hg'
  | delete σ =>
      rw [QueueOp.run, OrdMap.get?_erase] at ht'
      split_ifs at ht' with hσ
      exact hq t' g' ht' hg'
  | topic σ op =>
      obtain ⟨t, ht, hpre⟩ := hpre
      rw [QueueOp.run, Queue.updateTopic_of_some ht, Queue.putTopic_topics] at ht'
      split_ifs at ht' with hσ
      · subst hσ
        obtain rfl := Option.some.inj ht'
        rcases TopicOp.group_of_run hpre hg' with ⟨g, hg, rfl⟩ | ⟨-, now, rfl, -⟩
        · rw [(op.groupStep t γ g).pollCount]
          · exact hq t g ht hg
          · rintro ts rfl
            obtain ⟨d, hpoll⟩ := hallow
            exact hnopoll _ hpoll
        · rcases hallow with ⟨d, ts, hpoll, -⟩ | ⟨off, hcommit⟩
          · exact absurd hpoll (hnopoll _)
          · rw [AppRequest.consumerClock?_of_commitOf? hcommit] at hreq
            cases hreq
      · exact hq t' g' ht' hg'

theorem consumeTopic_pollCount {now : Option Nat} {f : TopicState → GroupState → GroupState}
    (hentry : ∀ g₀, groupEntry (now.elim t (sweepAndReclaim t)) γ now = some g₀ →
      (f (now.elim t (sweepAndReclaim t)) g₀).pollCount = c) {g' : GroupState}
    (hg' : (consumeTopic t γ now f).groups.get? γ = some g') : g'.pollCount = c := by
  unfold consumeTopic at hg'
  simp only at hg'
  cases h : groupEntry (now.elim t (sweepAndReclaim t)) γ now with
  | none =>
      rw [h, Option.elim_none, groupEntry_eq_none h] at hg'
      cases hg'
  | some g₀ =>
      rw [h, Option.elim_some, putGroup_groups, if_pos rfl] at hg'
      exact Option.some.inj hg' ▸ hentry g₀ h

/-- A request that does not create the group finds it with the counter it
has. -/
theorem entry_pollCount {req : AppRequest} {now : Option Nat}
    (hclock : req.consumerClock? τ γ = some now) (hok : checkConsumer τ γ = .ok ())
    (ht : q.topics.get? τ = some t) (hopen : q.opens req τ γ = none) (hq : q.Counts τ γ c)
    {g₀ : GroupState} (hentry : groupEntry (now.elim t (sweepAndReclaim t)) γ now = some g₀) :
    g₀.pollCount = c := by
  rw [Queue.opens_of_consumer hclock hok ht] at hopen
  rcases groupEntry_eq_some hentry with ⟨-, hg₀⟩ | ⟨hopened, -⟩
  · cases now with
    | none => exact hq t g₀ ht hg₀
    | some ts =>
        obtain ⟨g, hg, rfl, -⟩ := sweepAndReclaim_sub hg₀
        rw [GroupState.stamp_pollCount]
        exact hq t g ht hg
  · rw [hopened] at hopen
    cases hopen

/-- After a poll the counter is one above the one the poll found. -/
theorem poll_counts {max vis ts : Nat}
    (hentry : ∀ t g₀, q.topics.get? τ = some t →
      groupEntry (sweepAndReclaim t ts) γ (some ts) = some g₀ → g₀.pollCount = c) :
    (q.poll τ γ max vis ts).1.Counts τ γ (satAdd c 1) := by
  intro t' g' ht' hg'
  rw [Queue.poll_topics] at ht'
  obtain ⟨t, ht, rfl⟩ := Option.map_eq_some_iff.mp ht'
  rw [if_pos rfl, pollTopic_fst] at hg'
  refine consumeTopic_pollCount (fun g₀ hg₀ => ?_) hg'
  rw [pollGroup_same.pollCount, GroupState.beginPoll_pollCount, hentry t g₀ ht hg₀]

theorem commit_counts {offset : Offset} {now : Option Nat}
    (hentry : ∀ t g₀, q.topics.get? τ = some t →
      groupEntry (now.elim t (sweepAndReclaim t)) γ now = some g₀ → g₀.pollCount = c) :
    (q.commit τ γ offset now).Counts τ γ c := by
  intro t' g' ht' hg'
  rw [Queue.commit, Queue.updateTopic_topics] at ht'
  obtain ⟨t, ht, rfl⟩ := Option.map_eq_some_iff.mp ht'
  rw [if_pos rfl, commitTopic_eq] at hg'
  refine consumeTopic_pollCount (fun g₀ hg₀ => ?_) hg'
  rw [GroupState.touch_pollCount, GroupState.advanceWatermark_pollCount, hentry t g₀ ht hg₀]

/-- Between its polls a group keeps its counter, if it is not created
again. -/
theorem apply_counts {req : AppRequest} (hpoll : req.pollOf? τ γ = none)
    (hopen : q.opens req τ γ = none) (hq : q.Counts τ γ c) : (q.apply req).1.Counts τ γ c := by
  cases hclock : req.consumerClock? τ γ with
  | none => exact (apply_steps q req).counts hclock hq
  | some now =>
      -- a consumer request that is no poll is a commit
      cases req with
      | poll topic group max vis ts | pollAuto topic group max vis ts =>
          rw [AppRequest.consumerClock?] at hclock
          split_ifs at hclock with heq
          rw [AppRequest.pollOf?, if_pos heq] at hpoll
          cases hpoll
      | commitOffset topic group offset | commitOffsetAt topic group offset ts =>
          have hfound := hclock
          rw [AppRequest.consumerClock?] at hclock
          split_ifs at hclock with heq
          obtain ⟨rfl, rfl⟩ := heq
          obtain rfl := Option.some.inj hclock
          cases hok : checkConsumer topic group with
          | error reason => simpa only [Queue.apply, hok] using hq
          | ok =>
              simp only [Queue.apply, hok]
              refine (reclaim_steps (.createTopic topic) topic _).counts rfl (commit_counts ?_)
              exact fun t g₀ ht hg₀ => entry_pollCount hfound hok ht hopen hq hg₀
      | _ => cases hclock

theorem groupPoll_clock (p : GroupPoll) (τ : TopicId) (γ : GroupId) :
    (p.request τ γ).consumerClock? τ γ = some (some p.tsMs) := by
  unfold GroupPoll.request
  split <;> exact if_pos ⟨rfl, rfl⟩

theorem groupPoll_counts (hok : checkConsumer τ γ = .ok ())
    (hentry : ∀ t g₀, q.Entered τ γ p.tsMs t g₀ → g₀.pollCount = c) :
    (q.apply (p.request τ γ)).1.Counts τ γ (satAdd c 1) := by
  obtain ⟨-, ids, hacks⟩ := apply_groupPoll (q := q) (p := p) hok
  exact hacks.counts rfl (poll_counts fun t g₀ ht hg₀ => hentry t g₀ ⟨hok, ht, hg₀⟩)

/-- From one poll to the next the counter moves by one. -/
theorem counts_next {reqs : List AppRequest} (hok : checkConsumer τ γ = .ok ())
    (hpoll : ∀ req ∈ reqs, req.pollOf? τ γ = none)
    (hopen : ∀ s ∈ q.history (reqs ++ [p.request τ γ]), s.1.opens s.2 τ γ = none)
    (hq : q.Counts τ γ c) :
    (∀ t g₀, (q.run reqs).Entered τ γ p.tsMs t g₀ → g₀.pollCount = c) ∧
      (q.run (reqs ++ [p.request τ γ])).Counts τ γ (satAdd c 1) := by
  induction reqs generalizing q with
  | nil =>
      have hentry : ∀ t g₀, q.Entered τ γ p.tsMs t g₀ → g₀.pollCount = c := fun t g₀ h =>
        entry_pollCount (groupPoll_clock p τ γ) hok h.2.1
          (hopen _ (List.mem_singleton.mpr rfl)) hq h.2.2
      exact ⟨hentry, groupPoll_counts hok hentry⟩
  | cons req rest ih =>
      obtain ⟨hreq, hrest⟩ := List.forall_mem_cons.mp hpoll
      obtain ⟨hhead, htail⟩ := List.forall_mem_cons.mp hopen
      exact ih hrest htail (apply_counts hreq hhead hq)

/-- A fourth poll has a slot for the oldest. -/
theorem servesOldest_of_fourth {reqs : List AppRequest} (hmax : 1 ≤ p.max)
    (hcounter : (({} : Queue).run reqs).nextLeaseId < u64Max)
    (hcount : ∀ t g₀, (({} : Queue).run reqs).Entered τ γ p.tsMs t g₀ → g₀.pollCount = c)
    (hfourth : (c + 1) % 4 = 0) : (({} : Queue).run reqs).ServesOldest τ γ p :=
  servesOldest_of_slot hcounter fun t g₀ henter =>
    prioritySlots_lt hmax (Or.inr (hcount t g₀ henter ▸ hfourth))

theorem exists_entered_count (q : Queue) (τ : TopicId) (γ : GroupId) (ts : Nat) :
    ∃ c, ∀ t g₀, q.Entered τ γ ts t g₀ → g₀.pollCount = c := by
  by_cases h : ∃ t g₀, q.Entered τ γ ts t g₀
  · obtain ⟨t, g₀, henter⟩ := h
    exact ⟨g₀.pollCount, fun t' g₀' h' => by rw [(henter.unique h').2]⟩
  · exact ⟨0, fun t g₀ henter => absurd ⟨t, g₀, henter⟩ h⟩

end Polls

/-- Of four counters in a row one is before a fourth poll, also at the end
of the counter's range: there all are. -/
theorem satAdd_fourth (c : Nat) :
    (c + 1) % 4 = 0 ∨ (satAdd c 1 + 1) % 4 = 0 ∨ (satAdd (satAdd c 1) 1 + 1) % 4 = 0 ∨
      (satAdd (satAdd (satAdd c 1) 1) 1 + 1) % 4 = 0 := by
  simp only [satAdd, u64Max]
  omega

/-- Low priority cannot be starved, as long as the lease counter has not run
out. Of four polls of a group in a row, whatever happens in between, one
hands out the oldest message deliverable to the group, if there is any; and
so does every poll of four or more. -/
theorem oldest_served_within_four (reqs m₁ m₂ m₃ : List AppRequest) (p₁ p₂ p₃ p₄ : GroupPoll)
    (τ : TopicId) (γ : GroupId) (hmax : ∀ p ∈ [p₁, p₂, p₃, p₄], 1 ≤ p.max)
    (hbetween : ∀ req ∈ m₁ ++ m₂ ++ m₃, req.pollOf? τ γ = none)
    (hsame : ∀ s ∈ (({} : Queue).run (reqs ++ [p₁.request τ γ])).history
      (m₁ ++ [p₂.request τ γ] ++ m₂ ++ [p₃.request τ γ] ++ m₃ ++ [p₄.request τ γ]),
      s.1.opens s.2 τ γ = none)
    (hcounter : (({} : Queue).run (reqs ++ [p₁.request τ γ] ++ m₁ ++ [p₂.request τ γ] ++ m₂ ++
      [p₃.request τ γ] ++ m₃)).nextLeaseId < u64Max) :
    ((({} : Queue).run reqs).ServesOldest τ γ p₁ ∨
      (({} : Queue).run (reqs ++ [p₁.request τ γ] ++ m₁)).ServesOldest τ γ p₂ ∨
      (({} : Queue).run (reqs ++ [p₁.request τ γ] ++ m₁ ++ [p₂.request τ γ] ++ m₂)).ServesOldest
        τ γ p₃ ∨
      (({} : Queue).run (reqs ++ [p₁.request τ γ] ++ m₁ ++ [p₂.request τ γ] ++ m₂ ++
        [p₃.request τ γ] ++ m₃)).ServesOldest τ γ p₄) ∧
    ∀ (reqs' : List AppRequest) (p : GroupPoll), 4 ≤ p.max →
      (({} : Queue).run reqs').nextLeaseId < u64Max →
      (({} : Queue).run reqs').ServesOldest τ γ p := by
  refine ⟨?_, fun reqs' p hfour hlt => servesOldest_of_slot hlt fun t g₀ _ =>
    prioritySlots_lt (by omega) (Or.inl hfour)⟩
  cases hok : checkConsumer τ γ with
  | error reason =>
      refine Or.inl ?_
      rintro ⟨o, t, g₀, ⟨hok', -⟩, -⟩
      rw [hok] at hok'
      cases hok'
  | ok =>
      -- the counters the four polls find
      obtain ⟨c, hc⟩ := exists_entered_count (({} : Queue).run reqs) τ γ p₁.tsMs
      have hcounts := groupPoll_counts hok hc
      rw [← Queue.run_snoc] at hcounts
      simp only [List.append_assoc] at hsame
      rw [← List.append_assoc, Queue.history_append, List.forall_mem_append] at hsame
      obtain ⟨hsame₂, hsame⟩ := hsame
      obtain ⟨hc₂, hcounts₂⟩ := counts_next hok (fun req h => hbetween req (by simp [h])) hsame₂
        hcounts
      rw [← List.append_assoc, Queue.history_append, List.forall_mem_append] at hsame
      obtain ⟨hsame₃, hsame₄⟩ := hsame
      obtain ⟨hc₃, hcounts₃⟩ := counts_next hok (fun req h => hbetween req (by simp [h])) hsame₃
        hcounts₂
      obtain ⟨hc₄, -⟩ := counts_next hok (fun req h => hbetween req (by simp [h])) hsame₄ hcounts₃
      simp only [List.forall_mem_cons] at hmax
      -- the lease counter before the fourth poll bounds the earlier ones
      have hcounter₃ := run_nextLease_lt (Queue.run_append .. ▸ run_nextLease_lt
        (Queue.run_append .. ▸ hcounter))
      have hcounter₂ := run_nextLease_lt (Queue.run_append .. ▸ run_nextLease_lt
        (Queue.run_append .. ▸ hcounter₃))
      have hcounter₁ := run_nextLease_lt (Queue.run_append .. ▸ run_nextLease_lt
        (Queue.run_append .. ▸ hcounter₂))
      simp only [List.append_assoc] at hcounter hcounter₂ hcounter₃
      simp only [← Queue.run_append, List.append_assoc] at hc₂ hc₃ hc₄ ⊢
      rcases satAdd_fourth c with h | h | h | h
      · exact Or.inl (servesOldest_of_fourth hmax.1 hcounter₁ hc h)
      · exact Or.inr (Or.inl (servesOldest_of_fourth hmax.2.1 hcounter₂ hc₂ h))
      · exact Or.inr (Or.inr (Or.inl (servesOldest_of_fourth hmax.2.2.1 hcounter₃ hc₃ h)))
      · exact Or.inr (Or.inr (Or.inr (servesOldest_of_fourth hmax.2.2.2.1 hcounter hc₄ h)))

/-- A message of low priority and four of high priority. -/
def urgentBehind : List AppRequest :=
  .produce "t" .default .raw [0] "" 0 1 ::
    [[1], [2], [3], [4]].map fun payload => .produce "t" ⟨7, by decide⟩ .raw payload "" 0 1

/-- Polls of one message each: the fourth brings the oldest. -/
theorem oldest_served_within_four_urgent :
    let p : GroupPoll := ⟨false, 1, 1000, 2⟩
    let r := p.request "t" "g"
    ((({} : Queue).run urgentBehind).ServesOldest "t" "g" p ∨
      (({} : Queue).run (urgentBehind ++ [r] ++ [])).ServesOldest "t" "g" p ∨
      (({} : Queue).run (urgentBehind ++ [r] ++ [] ++ [r] ++ [])).ServesOldest "t" "g" p ∨
      (({} : Queue).run (urgentBehind ++ [r] ++ [] ++ [r] ++ [] ++ [r] ++ [])).ServesOldest
        "t" "g" p) ∧
    (({} : Queue).history (urgentBehind ++ [r, r, r, r])).map
      (fun s => (s.1.apply s.2).2.delivered.map (·.offset)) =
      [[], [], [], [], [], [1], [2], [3], [0]] := by
  intro p r
  exact ⟨(oldest_served_within_four urgentBehind [] [] [] p p p p "t" "g" (by decide) nofun
    (by decide) (by decide)).1, by decide⟩

/-- Once two messages share the last lease id, four polls in a row all miss
the one that is deliverable. -/
theorem stuck_behind_shared_lease :
    let p : GroupPoll := ⟨false, 1, 1000, 2000⟩
    let r := p.request "t" "g"
    (∀ s ∈ (({} : Queue).run (sharedLease ++ [r])).history [r, r, r],
      s.1.opens s.2 "t" "g" = none) ∧
    ∀ k < 4, ¬ (({} : Queue).run (sharedLease ++ List.replicate k r)).ServesOldest "t" "g" p := by
  intro p r
  have hrun : ∀ reqs, ({} : Queue).run (sharedLease ++ reqs) = (countingQueue u64Max).run
      ([plainProduce, plainProduce, .poll "t" "g" 2 1000 2, .ack "t" "g" u64Max] ++ reqs) := by
    intro reqs
    rw [sharedLease, List.append_assoc, Queue.run_append, run_burnLeases]
  have hmissed : ∀ k < 4,
      (((({} : Queue).run (sharedLease ++ List.replicate k r)).topics.get? "t").bind fun t =>
        (groupEntry (sweepAndReclaim t 2000) "g" (some 2000)).map fun g₀ =>
          eligible (sweepAndReclaim t 2000).messages g₀ 2000) = some [(.default, 0)] ∧
      ((({} : Queue).run (sharedLease ++ List.replicate k r)).apply r).2.delivered = [] := by
    simp only [hrun]
    decide
  refine ⟨by rw [hrun]; decide, fun k hk hserves => ?_⟩
  obtain ⟨hstate, hnothing⟩ := hmissed k hk
  obtain ⟨t, ht, hstate⟩ := Option.bind_eq_some_iff.mp hstate
  obtain ⟨g₀, hentry, heligible⟩ := Option.map_eq_some_iff.mp hstate
  obtain ⟨x, hx, -⟩ := hserves ⟨0, t, g₀, ⟨rfl, ht, hentry⟩, by rw [heligible]; decide⟩
  rw [hnothing] at hx
  cases hx

end HermesMq
