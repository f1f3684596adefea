import HermesMq.QueueHistory

/-!
# One consumer at a time

While a group holds a lease on an offset, no other poll of the group is
handed the offset. Once delivered, an offset stays `Guarded`: it is done,
or it is in the offset map and the only lease in flight on it is the one
it was delivered under. Only a nack of that lease or a clock at or past
its deadline lets go of it; the idle sweep cannot, because a group that
polled at `ts` outlives every deadline that poll can set.
-/

namespace HermesMq

/-! ## Guarded offsets -/

/-- Out of reach of a second delivery: done, or leased, with no lease in
flight on it but `id`, due at `d`. -/
def Guarded (o : Offset) (id : LeaseId) (d : Nat) (g : GroupState) : Prop :=
  g.Done o ∨ (g.leasedOffsets.get? o ≠ none ∧
    ∀ i l, g.inFlight.get? i = some l → l.offset = o → i = id ∧ l.deadlineMs = d)

namespace Guarded

variable {o : Offset} {id : LeaseId} {d : Nat} {g g' : GroupState}

theorem not_deliverable (h : Guarded o id d g) {messages : OrdMap Offset Message} :
    ¬Deliverable messages g o := by
  intro hdel
  rcases h with hdone | ⟨hleased, -⟩
  · exact hdel.not_done hdone
  · exact hleased hdel.unleased

/-- Guarding survives what keeps the done set, the offset's entry and
adds no lease on it. -/
theorem mono (h : Guarded o id d g) (hdone : g.Done o → g'.Done o)
    (hleased : ¬g'.Done o → g'.leasedOffsets.get? o = g.leasedOffsets.get? o)
    (hin : ∀ i l, g'.inFlight.get? i = some l → l.offset = o → g.inFlight.get? i = some l) :
    Guarded o id d g' := by
  by_cases hd : g'.Done o
  · exact Or.inl hd
  · rcases h with h | ⟨h, honly⟩
    · exact absurd (hdone h) hd
    · exact Or.inr ⟨hleased hd ▸ h, fun i l hi ho => honly i l (hin i l hi ho) ho⟩

theorem of_maps (h : Guarded o id d g) (hdone : g'.Done o ↔ g.Done o)
    (hi : g'.inFlight = g.inFlight) (hl : g'.leasedOffsets = g.leasedOffsets) :
    Guarded o id d g' :=
  h.mono hdone.mpr (fun _ => by rw [hl]) fun i l h _ => hi ▸ h

theorem dropLeases_inFlight_sub {p : Lease → Bool} {i : LeaseId} {l : Lease}
    (h : (g.dropLeases p).inFlight.get? i = some l) : g.inFlight.get? i = some l := by
  rw [GroupState.dropLeases_inFlight, Option.filter_eq_some_iff] at h
  exact h.1

theorem beginPoll (h : Guarded o id d g) {ts : Nat} (hts : ts < d) :
    Guarded o id d (g.beginPoll ts) := by
  rcases h with h | ⟨h, honly⟩
  · exact Or.inl ((GroupState.beginPoll_done g ts o).mpr h)
  · refine Or.inr ⟨?_, fun i l hi ho => honly i l (dropLeases_inFlight_sub hi) ho⟩
    have hkept := GroupState.dropLeases_leasedOffsets_of_kept (g := g) (o := o)
      (p := fun l => l.deadlineMs ≤ ts) fun i l hi ho => by
        rw [(honly i l hi ho).2]
        exact decide_eq_false (not_le.mpr hts)
    exact fun hnone => h (hkept.symm.trans hnone)

theorem takeLease (h : Guarded o id d g) {i : LeaseId} {o' : Offset} (d' : Nat)
    (hne : o' ≠ o) : Guarded o id d (g.takeLease i o' d') := by
  refine h.mono (fun hdone => hdone) (fun _ => ?_) fun i' l hi ho => ?_
  · exact OrdMap.get?_insert_ne _ _ hne.symm
  · rw [GroupState.takeLease, OrdMap.get?_insert] at hi
    split_ifs at hi
    · obtain rfl := Option.some.inj hi
      exact absurd ho hne
    · exact hi

theorem removeLease (h : Guarded o id d g) {i : LeaseId} (hne : i ≠ id) :
    Guarded o id d (g.removeLease i) := by
  rcases h with h | ⟨h, honly⟩
  · exact Or.inl ((GroupState.sameButLeases_removeLease g i).done.mpr h)
  · refine Or.inr ⟨?_, fun i' l hi ho => ?_⟩
    · rw [GroupState.removeLease_leasedOffsets, if_neg]
      · exact h
      · intro hany
        obtain ⟨l, hl, ho⟩ := (Option.any_eq_true _ _).mp hany
        exact hne (honly i l hl (of_decide_eq_true ho)).1
    · rw [GroupState.removeLease_inFlight] at hi
      split_ifs at hi
      exact honly i' l hi ho

theorem ackLease (h : Guarded o id d g) (hw : g.ackWatermark ≤ u64Max) (ho : o < u64Max)
    (i : LeaseId) : Guarded o id d (g.ackLease i) := by
  refine h.mono (fun hdone => (GroupState.ackLease_done hw i ho).mpr (Or.inl hdone))
    (fun hnot => ?_) fun i' l hi _ => ackLease_inFlight_sub hi
  rw [GroupState.ackLease_done hw i ho, not_or] at hnot
  unfold GroupState.ackLease
  split
  · rfl
  · rename_i l hl
    rw [GroupState.markAcked_leasedOffsets, GroupState.removeLease_leasedOffsets, if_neg]
    intro hany
    rw [hl] at hany
    exact hnot.2 ⟨l, hl, by simpa using hany⟩

theorem advanceWatermark (h : Guarded o id d g) (hw : g.ackWatermark ≤ u64Max)
    (ho : o < u64Max) {upto : Offset} (hupto : upto ≤ u64Max) :
    Guarded o id d (g.advanceWatermark upto) := by
  have hdone := GroupState.advanceWatermark_done hw hupto ho
  refine h.mono (fun hd => hdone.mpr (Or.inl hd)) (fun hnot => ?_) fun i l hi _ => ?_
  · rw [hdone, not_or] at hnot
    have hge : max g.ackWatermark upto ≤ o :=
      max_le (not_lt.mp fun hlt => hnot.1 (Or.inl hlt)) (not_lt.mp hnot.2)
    rw [GroupState.advanceWatermark_eq, GroupState.absorbAcked_leasedOffsets,
      GroupState.dropLeases_leasedOffsets_of_kept]
    · rfl
    · rintro i l - rfl
      exact decide_eq_false (not_lt.mpr hge)
  · rw [GroupState.advanceWatermark_inFlight, Option.filter_eq_some_iff] at hi
    exact hi.1

end Guarded

/-! ## A held lease through the steps of other requests -/

theorem AppRequest.sweepClock_of_pollOf {req : AppRequest} {τ : TopicId} {γ : GroupId}
    {ts d : Nat} (h : req.pollOf? τ γ = some (ts, d)) : req.sweepClock? τ = some ts := by
  obtain ⟨max, vis, rfl | rfl, -⟩ := AppRequest.pollOf?_eq_some h
  · exact if_pos rfl
  · exact if_pos rfl

/-- The deadline of a lease is within the longest visibility of its poll. -/
theorem AppRequest.pollOf_deadline {req : AppRequest} {τ : TopicId} {γ : GroupId}
    {ts d : Nat} (h : req.pollOf? τ γ = some (ts, d)) : d ≤ ts + maxVisibilityMs := by
  obtain ⟨max, vis, -, rfl⟩ := AppRequest.pollOf?_eq_some h
  exact (satAdd_le_add ..).trans (Nat.add_le_add_left (min_le_right ..) _)

section Held

variable {τ : TopicId} {γ : GroupId} {o : Offset} {id : LeaseId} {d ts₁ : Nat}

/-- Group `γ` is there, was active at `ts₁` or later, and guards `o`. -/
def Held (γ : GroupId) (o : Offset) (id : LeaseId) (d ts₁ : Nat) (t : TopicState) : Prop :=
  ∃ g, t.groups.get? γ = some g ∧ ts₁ ≤ g.lastActiveMs ∧ Guarded o id d g

/-- A request that lets go of no lease due at `d` or held under `id`. -/
structure Harmless (τ : TopicId) (γ : GroupId) (id : LeaseId) (d : Nat) (req : AppRequest) :
    Prop where
  keeps : req ≠ .deleteTopic τ
  noNack : ¬req.Nacks τ γ id
  early : ∀ ts, req.sweepClock? τ = some ts → ts < d

/-- The step's effect on the group keeps its guard. -/
theorem Guarded.groupRun {t : TopicState} (ht : TopicShape t) {n : LeaseId} {op : TopicOp}
    (hpre : op.Pre t n) {req : AppRequest} (hallow : op.AllowedBy req τ)
    (hreq : Harmless τ γ id d req) (ho : o < u64Max) {g : GroupState}
    (hg : t.groups.get? γ = some g) (h : Guarded o id d g) :
    Guarded o id d (op.groupRun t γ g) := by
  have hw := (ht.watermark hg).2
  have hstep := op.groupStep t γ g
  generalize op.groupRun t γ g = g' at hstep ⊢
  cases hstep with
  | same => exact h
  | purge now => exact h.advanceWatermark hw ho ((ht.purgeBoundary_le now).trans ht.nextOffset_le)
  | sweep now =>
      exact h.of_maps (GroupState.stamp_done g now o) (GroupState.stamp_inFlight g now)
        (GroupState.stamp_leasedOffsets g now)
  | beginPoll ts =>
      obtain ⟨d', hpoll⟩ := hallow
      exact h.beginPoll (hreq.early ts (AppRequest.sweepClock_of_pollOf hpoll))
  | lease i o' d' =>
      exact h.takeLease d' fun heq => h.not_deliverable (heq ▸ hpre.deliverable hg)
  | ack i => exact h.ackLease hw ho i
  | nack i => exact h.removeLease fun heq => hreq.noNack (heq ▸ hallow)
  | commit upto now =>
      exact (h.advanceWatermark hw ho (hpre.trans ht.nextOffset_le)).of_maps
        (GroupState.touch_done _ now o) (GroupState.touch_inFlight _ now)
        (GroupState.touch_leasedOffsets _ now)

/-- The idle sweep keeps a group that polled at `ts₁` at every clock
before the deadlines of that poll. -/
theorem keptBySweep_of_early {g : GroupState} {now : Nat} (hact : ts₁ ≤ g.lastActiveMs)
    (hd : d ≤ ts₁ + maxVisibilityMs) (hnow : now < d) :
    keptBySweep now (g.stamp now) = true := by
  have hvis : maxVisibilityMs ≤ groupIdleExpireMs := by decide
  exact keptBySweep_of_active hact (by omega)

theorem Held.run {t : TopicState} (ht : TopicShape t) {n : LeaseId} {op : TopicOp}
    (hpre : op.Pre t n) {req : AppRequest} (hallow : op.AllowedBy req τ)
    (hreq : Harmless τ γ id d req) (ho : o < u64Max) (hd : d ≤ ts₁ + maxVisibilityMs)
    (h : Held γ o id d ts₁ t) : Held γ o id d ts₁ (op.run t) := by
  obtain ⟨g, hg, hact, hguard⟩ := h
  rcases TopicOp.group_run hpre ht.size_le_threshold hg with hrun | ⟨now, rfl, hidle, -⟩
  · exact ⟨_, hrun, hact.trans (TopicOp.le_groupRun_lastActiveMs t γ g op),
      hguard.groupRun ht hpre hallow hreq ho hg⟩
  · rw [keptBySweep_of_early hact hd (hreq.early now hallow)] at hidle
    cases hidle

/-- Topic `τ` of a well-shaped queue holds the lease. -/
def Queue.Holding (τ : TopicId) (γ : GroupId) (o : Offset) (id : LeaseId) (d ts₁ : Nat)
    (q : Queue) : Prop :=
  q.TopicHas τ (Held γ o id d ts₁)

theorem Steps.holding {req : AppRequest} (hreq : Harmless τ γ id d req) (ho : o < u64Max)
    (hd : d ≤ ts₁ + maxVisibilityMs) {q q' : Queue} (h : Steps req q q')
    (hq : q.Holding τ γ o id d ts₁) : q'.Holding τ γ o id d ts₁ :=
  h.topicHas hreq.keeps (fun _ _ _ ht hpre hallow hheld => hheld.run ht hpre hallow hreq ho hd) hq

theorem run_holding (reqs : List AppRequest) (ho : o < u64Max)
    (hd : d ≤ ts₁ + maxVisibilityMs) (hreqs : ∀ req ∈ reqs, Harmless τ γ id d req) {q : Queue}
    (hq : q.Holding τ γ o id d ts₁) : (q.run reqs).Holding τ γ o id d ts₁ := by
  induction reqs generalizing q with
  | nil => exact hq
  | cons req rest ih =>
      exact ih (fun r hr => hreqs r (List.mem_cons_of_mem _ hr))
        ((apply_steps q req).holding (hreqs req (List.mem_cons_self ..)) ho hd hq)

end Held

/-! ## Deliveries -/

theorem leaseChosen_leasedOffsets_of_not_mem {messages : OrdMap Offset Message} {d : Nat}
    {o : Offset} : ∀ {l : List Ranked} {g : GroupState} {n : LeaseId}, o ∉ l.map Prod.snd →
      (leaseChosen messages d l g n).1.leasedOffsets.get? o = g.leasedOffsets.get? o := by
  intro l
  induction l with
  | nil => exact fun _ => rfl
  | cons x rest ih =>
      intro g n ho
      rw [List.map_cons, List.mem_cons, not_or] at ho
      exact (ih ho.2).trans (OrdMap.get?_insert_ne _ _ ho.1)

theorem leaseChosen_leasedOffsets_of_mem {messages : OrdMap Offset Message} {d : Nat}
    {o : Offset} : ∀ {l : List Ranked} {g : GroupState} {n : LeaseId}, o ∈ l.map Prod.snd →
      (leaseChosen messages d l g n).1.leasedOffsets.get? o = some d := by
  intro l
  induction l with
  | nil => intro g n ho; cases ho
  | cons x rest ih =>
      intro g n ho
      by_cases hrest : o ∈ rest.map Prod.snd
      · exact ih hrest
      · rw [List.map_cons, List.mem_cons, or_iff_left hrest] at ho
        refine (leaseChosen_leasedOffsets_of_not_mem hrest).trans ?_
        rw [ho]
        exact OrdMap.get?_insert_self ..

/-- What a poll hands out it guards. -/
theorem pollGroup_guarded {messages : OrdMap Offset Message} {g0 : GroupState}
    {max vis ts : Nat} {n : LeaseId} (hagree : g0.LeasesAgree) {item : Delivered}
    (hitem : item ∈ (pollGroup messages g0 max vis ts n).2.2) :
    Guarded item.offset item.leaseId (satAdd ts vis) (pollGroup messages g0 max vis ts n).1 := by
  have hfree := (pollGroup_deliverable hitem).unleased
  refine Or.inr ⟨?_, fun i l hi ho => ?_⟩
  · have hleased : (pollGroup messages g0 max vis ts n).1.leasedOffsets.get? item.offset
        = some (satAdd ts vis) := by
      unfold pollGroup at hitem ⊢
      simp only at hitem ⊢
      split_ifs at hitem ⊢
      · cases hitem
      · exact leaseChosen_leasedOffsets_of_mem (mem_leaseChosen hitem).1
    rw [hleased]
    exact nofun
  · rcases pollGroup_inFlight hi with ⟨item', hitem', hid, rfl⟩ | ⟨-, hold⟩
    · have hsame : item' = item :=
        List.inj_on_of_nodup_map pollGroup_offsets_nodup hitem' hitem ho
      exact ⟨hid ▸ hsame ▸ rfl, rfl⟩
    · have hagree' : (g0.beginPoll ts).LeasesAgree := (hagree.dropLeases _).of_maps rfl rfl
      rw [← ho, hagree'.leased hold] at hfree
      cases hfree

theorem poll_holding {q : Queue} (hq : q.Topics TopicShape) {τ : TopicId} {γ : GroupId}
    {max vis ts : Nat} {item : Delivered} (hitem : item ∈ (q.poll τ γ max vis ts).2) :
    (q.poll τ γ max vis ts).1.Holding τ γ item.offset item.leaseId
      (satAdd ts (min vis maxVisibilityMs)) ts := by
  have hsteps : Steps (.poll τ γ max vis ts) q (q.poll τ γ max vis ts).1 :=
    poll_steps (by simp [AppRequest.sweepClock?]) (by simp [AppRequest.pollOf?]) q
  obtain ⟨t, g0, ht, hentry, hitems, hafter⟩ := delivered_pollGroup hitem
  rw [hitems] at hitem
  have hagree : g0.LeasesAgree := by
    rcases groupEntry_eq_some hentry with ⟨-, hg0⟩ | ⟨-, rfl⟩
    · exact (swept_shape (hq τ t ht) (some ts)).leases hg0
    · exact freshGroup_leases ..
  refine ⟨hsteps.shape hq, _, hafter, _, OrdMap.get?_insert_self .., ?_,
    pollGroup_guarded hagree hitem⟩
  rw [pollGroup_same.lastActiveMs, GroupState.beginPoll_lastActiveMs]
  exact le_max_right ..

/-- A guarded offset is not handed out by a poll at a clock before the
deadline of its lease. -/
theorem Queue.Holding.not_delivered {q : Queue} {τ : TopicId} {γ : GroupId} {o : Offset}
    {id : LeaseId} {d ts₁ : Nat} (h : q.Holding τ γ o id d ts₁) (ho : o < u64Max)
    (hd : d ≤ ts₁ + maxVisibilityMs) {max vis ts : Nat} (hts : ts < d) {item : Delivered}
    (hitem : item ∈ (q.poll τ γ max vis ts).2) : item.offset ≠ o := by
  rintro rfl
  obtain ⟨hshape, t, ht, hheld⟩ := h
  obtain ⟨t', g0, ht', hentry, hitems, -⟩ := delivered_pollGroup hitem
  rw [hitems] at hitem
  obtain rfl := Option.some.inj (ht.symm.trans ht')
  have hreq : Harmless τ γ id d (.poll τ γ max vis ts) :=
    ⟨nofun, nofun, fun ts' h => by simp [AppRequest.sweepClock?] at h; exact h ▸ hts⟩
  have hsweep : TopicOp.AllowedBy (.poll τ γ max vis ts) τ (.sweep ts) := if_pos rfl
  obtain ⟨g, hg, -, hguard⟩ := hheld.run (hshape τ t ht)
    (show TopicOp.Pre t 0 (.sweep ts) from trivial) hsweep hreq ho hd
  rw [TopicOp.run] at hg
  rcases groupEntry_eq_some hentry with ⟨-, hg0⟩ | ⟨hopen, -⟩
  · obtain rfl := Option.some.inj (hg.symm.trans hg0)
    exact (hguard.beginPoll hts).not_deliverable (pollGroup_deliverable hitem)
  · have hnone : openedIn (sweepAndReclaim t ts) γ = none :=
      if_pos (by rw [OrdMap.contains_iff.mpr ⟨g, hg⟩]; rfl)
    rw [hnone] at hopen
    cases hopen

/-- A leased message is not handed to a second consumer of its group. In
every run: one response never carries an offset twice, and between two
deliveries of an offset to a group within one life of the topic, up to
and including the second, the first lease was nacked or some poll or
stamped commit on the topic brought a clock at or past its deadline. -/
theorem leased_not_delivered_twice (pre : List AppRequest) {r₁ : AppRequest} {τ : TopicId}
    {γ : GroupId} {ts₁ d : Nat} (h₁ : r₁.pollOf? τ γ = some (ts₁, d)) :
    (((({} : Queue).run pre).apply r₁).2.delivered.map (·.offset)).Nodup ∧
    ∀ x ∈ ((({} : Queue).run pre).apply r₁).2.delivered, x.offset < u64Max →
      ∀ mid r₂ p, r₂.pollOf? τ γ = some p → .deleteTopic τ ∉ mid →
        ∀ y ∈ ((({} : Queue).run (pre ++ r₁ :: mid)).apply r₂).2.delivered,
          y.offset = x.offset →
          ∃ r ∈ mid ++ [r₂], r.Nacks τ γ x.leaseId ∨
            ∃ ts, r.sweepClock? τ = some ts ∧ d ≤ ts := by
  constructor
  · cases hitems : ((({} : Queue).run pre).apply r₁).2.delivered with
    | nil => exact List.nodup_nil
    | cons x rest =>
        have hx : x ∈ ((({} : Queue).run pre).apply r₁).2.delivered :=
          hitems ▸ List.mem_cons_self ..
        obtain ⟨-, -, max, vis, -, hpolled, -⟩ := delivered_poll h₁ hx
        rw [hpolled] at hx
        obtain ⟨t, g0, -, -, hgroup, -⟩ := delivered_pollGroup hx
        rw [← hitems, hpolled, hgroup]
        exact pollGroup_offsets_nodup
  · rintro x hx ho mid r₂ ⟨ts₂, d₂⟩ h₂ hmid y hy hxy
    by_contra hnone
    have hd := AppRequest.pollOf_deadline h₁
    have hharmless : ∀ r ∈ mid ++ [r₂], r ≠ .deleteTopic τ → Harmless τ γ x.leaseId d r :=
      fun r hr hne => ⟨hne, fun hnack => hnone ⟨r, hr, Or.inl hnack⟩,
        fun ts hts => not_le.mp fun hle => hnone ⟨r, hr, Or.inr ⟨ts, hts, hle⟩⟩⟩
    -- the lease is held after the first poll, its own acks included
    obtain ⟨-, -, max, vis, rfl, hitems, ids, hacks⟩ := delivered_poll h₁ hx
    rw [hitems] at hx
    have hown : Harmless τ γ x.leaseId (satAdd ts₁ (min vis maxVisibilityMs))
        (.ackMany τ γ ids) := ⟨nofun, nofun, nofun⟩
    have hheld := hacks.holding hown ho hd (poll_holding (run_shape pre) hx)
    -- and up to the second one
    have hheld₂ := run_holding mid ho hd
      (fun r hr => hharmless r (List.mem_append_left _ hr) fun h => hmid (h ▸ hr)) hheld
    rw [← Queue.run_cons, ← Queue.run_append] at hheld₂
    obtain ⟨-, -, max₂, vis₂, -, hitems₂, -⟩ := delivered_poll h₂ hy
    rw [hitems₂] at hy
    have hr₂ : r₂ ≠ .deleteTopic τ := by
      rintro rfl
      cases h₂
    have hearly := (hharmless r₂ (List.mem_append_right _ (List.mem_singleton.mpr rfl)) hr₂).early
      ts₂ (AppRequest.sweepClock_of_pollOf h₂)
    exact hheld₂.not_delivered ho hd hearly hy hxy

/-- A lease due at 1001 and a poll at 1001 that hands the message out
again. -/
theorem leased_not_delivered_twice_expired :
    let pre : List AppRequest := [.produce "t" 0 .raw [] "" 0 1]
    let r₁ : AppRequest := .poll "t" "g" 1 1000 1
    let r₂ : AppRequest := .poll "t" "g" 1 1000 1001
    ⟨0, 0, 0, .raw, [], 1⟩ ∈ ((({} : Queue).run pre).apply r₁).2.delivered ∧
      ⟨1, 0, 0, .raw, [], 1⟩ ∈ ((({} : Queue).run (pre ++ [r₁])).apply r₂).2.delivered ∧
      ∃ r ∈ [r₂], r.Nacks "t" "g" 0 ∨ ∃ ts, r.sweepClock? "t" = some ts ∧ 1001 ≤ ts := by
  intro pre r₁ r₂
  have h₁ : r₁.pollOf? "t" "g" = some (1, 1001) := by decide
  have h₂ : r₂.pollOf? "t" "g" = some (1001, 2001) := by decide
  have hx : ⟨0, 0, 0, .raw, [], 1⟩ ∈ ((({} : Queue).run pre).apply r₁).2.delivered := by decide
  have hy : ⟨1, 0, 0, .raw, [], 1⟩ ∈
      ((({} : Queue).run (pre ++ [r₁])).apply r₂).2.delivered := by decide
  exact ⟨hx, hy, (leased_not_delivered_twice pre h₁).2 _ hx (by decide) [] r₂ _ h₂ (by decide)
    _ hy rfl⟩

/-! ## The end of `u64`

The bound on the offset cannot be dropped: the last `u64` is an offset a
message can be stored under, but the saturating watermark cannot move
past it, so acking it changes nothing. Nor can the deadline be the exact
sum: at the last `u64` a lease is due at once. -/

/-- A topic that keeps one message, at offset `k`. -/
def loneMessage (k n : Nat) : TopicState :=
  { nextOffset := n
    messages := ⟨[(k, ⟨k, .default, .raw, [], 1⟩)], List.pairwise_singleton _ _⟩
    retainMaxMessages := 1 }

def loneQueue (k n : Nat) : Queue :=
  { topics := ⟨[("t", loneMessage k n)], List.pairwise_singleton _ _⟩ }

def plainItem : ProduceItem := ⟨"t", .default, .raw, [], "", 0, 1⟩

def plainProduce : AppRequest := .produce "t" .default .raw [] "" 0 1

theorem produce_replaces {k n : Nat} (h : k < n) :
    (produceTopic (loneMessage k n) plainItem).1 = loneMessage n (satAdd n 1) := by
  have hlt : ¬n < k := by omega
  have hne : n ≠ k := by omega
  have hentries : (appendMessage (loneMessage k n) plainItem).messages.entries =
      [(k, ⟨k, .default, .raw, [], 1⟩), (n, ⟨n, .default, .raw, [], 1⟩)] := by
    rw [appendMessage_messages]
    show OrdMap.insertEntry n _ [(k, _)] = _
    simp [OrdMap.insertEntry, hlt, hne, plainItem, loneMessage]
  have hset : purgeSet (appendMessage (loneMessage k n) plainItem) 1 = {k} := by
    have hret : effectiveRetention (appendMessage (loneMessage k n) plainItem) = (1, 0) := rfl
    unfold purgeSet
    rw [hret]
    simp [OrdMap.size, OrdMap.keys, hentries, purgeLowest]
  have hmessages : (purgeRetained (appendMessage (loneMessage k n) plainItem) 1).messages =
      (loneMessage n (satAdd n 1)).messages := by
    rw [purgeRetained_messages, hset]
    unfold OrdMap.filter
    simp only [hentries]
    simp [loneMessage, hne]
  rw [produceTopic_fst, produceAppended, if_neg (by simp [plainItem])]
  show purgeRetained (appendMessage (loneMessage k n) plainItem) 1 = _
  unfold purgeRetained at hmessages ⊢
  rw [hset] at hmessages ⊢
  simp only [Finset.singleton_ne_empty, if_false, pruneDedup_messages] at hmessages ⊢
  rw [hmessages]
  rfl

theorem loneQueue_produce {k n : Nat} (h : k < n) :
    ((loneQueue k n).apply plainProduce).1 = loneQueue n (satAdd n 1) := by
  have hcheck : (loneQueue k n).checkProduce [⟨"t", .default, .raw, [], "", 0, 1⟩] = .ok () := rfl
  have hone : ((loneQueue k n).apply plainProduce).1 =
      (loneQueue k n).putTopic "t" (produceTopic (loneMessage k n) plainItem).1 := by
    simp only [plainProduce, Queue.apply, hcheck]
    rfl
  rw [hone, produce_replaces h]
  simp [Queue.putTopic, loneQueue, OrdMap.insert, OrdMap.insertEntry]

theorem loneQueue_run (k j : Nat) (h : k + j + 1 ≤ u64Max) :
    (loneQueue k (k + 1)).run (List.replicate j plainProduce) =
      loneQueue (k + j) (k + j + 1) := by
  induction j generalizing k with
  | zero => rfl
  | succ j ih =>
      rw [List.replicate_succ, Queue.run_cons, loneQueue_produce (Nat.lt_succ_self k),
        satAdd_one_of_lt (by omega), ih (k + 1) (by omega), Nat.add_right_comm k 1 j]
      rfl

/-- Keep one message, and produce until the counter saturates. -/
def fillOffsets : List AppRequest :=
  [.setRetention "t" 1 0, plainProduce] ++
    (List.replicate (u64Max - 1) plainProduce ++ [plainProduce])

theorem fillOffsets_run : ({} : Queue).run fillOffsets = loneQueue u64Max u64Max := by
  have hfirst : ({} : Queue).run [.setRetention "t" 1 0, plainProduce] = loneQueue 0 1 := by
    decide
  have hrun := loneQueue_run 0 (u64Max - 1) (by decide)
  rw [Nat.zero_add, Nat.zero_add, Nat.sub_add_cancel (by decide)] at hrun
  rw [fillOffsets, Queue.run_append, hfirst, Queue.run_snoc, hrun,
    loneQueue_produce (by decide)]
  rfl

/-- Two deliveries of one offset with nothing in between: by two polls at
clock 1 of the message at the last offset, acked by the first of them;
and by two polls at the last clock, which is before the exact deadline
`u64Max + 1000`. -/
theorem delivered_twice_at_last_u64 :
    (∃ (pre : List AppRequest) (r : AppRequest) (x y : Delivered),
      r.pollOf? "t" "g" = some (1, 1 + 1000) ∧ r.sweepClock? "t" = some 1 ∧
      x ∈ ((({} : Queue).run pre).apply r).2.delivered ∧ ¬r.Nacks "t" "g" x.leaseId ∧
      y ∈ ((({} : Queue).run (pre ++ [r])).apply r).2.delivered ∧ y.offset = x.offset) ∧
    (∃ (pre : List AppRequest) (x y : Delivered),
      x ∈ ((({} : Queue).run pre).apply (.poll "t" "g" 1 1000 u64Max)).2.delivered ∧
      y ∈ ((({} : Queue).run (pre ++ [.poll "t" "g" 1 1000 u64Max])).apply
        (.poll "t" "g" 1 1000 u64Max)).2.delivered ∧ y.offset = x.offset) := by
  constructor
  · refine ⟨fillOffsets, .pollAuto "t" "g" 1 1000 1, ⟨0, u64Max, .default, .raw, [], 1⟩,
      ⟨1, u64Max, .default, .raw, [], 1⟩, by decide, by decide, ?_, nofun, ?_, rfl⟩
    · rw [fillOffsets_run]
      decide
    · rw [Queue.run_append, fillOffsets_run]
      decide
  · exact ⟨[plainProduce], ⟨0, 0, .default, .raw, [], 1⟩, ⟨1, 0, .default, .raw, [], 1⟩, by decide,
      by decide, rfl⟩

end HermesMq
