import HermesMq.BrokerTopics
import HermesMq.LeaseIds
import HermesMq.QuietGate
import HermesMq.SelectionReference

/-!
# The consumers of the broker's topics

What consumers do to a topic of the queue is what they do to the broker's:
the lowest watermark is the end of what every group is done with; the groups
a sweep keeps are those that are not idle; a poll hands out what is
available, whatever it chooses; acks, nacks and commits change one group.
-/

namespace HermesMq

variable {n n' : LeaseId} {a a' : BrokerTopic} {t t' : TopicState}

/-! ## What a poll chooses -/

theorem mem_candidates_of_mem_choose {messages : OrdMap Offset Message} {g : GroupState}
    {max pollCount : Nat} {x : Ranked} (hx : x ∈ choose messages g max pollCount) :
    x ∈ candidates messages g := by
  rw [choose_eq, List.mem_insertionSort] at hx
  exact (selection_subperm (candidates_nodup messages g)).subset hx

/-- A poll that comes back with fewer than it asked for has taken all. -/
theorem mem_choose_of_short {messages : OrdMap Offset Message} {g : GroupState}
    {max pollCount : Nat} (hshort : (choose messages g max pollCount).length < max) {x : Ranked}
    (hx : x ∈ candidates messages g) : x ∈ choose messages g max pollCount := by
  have hlength : (candidates messages g).length ≤ (choose messages g max pollCount).length := by
    rw [length_choose] at hshort ⊢
    omega
  rw [choose_eq, List.length_insertionSort] at hlength
  rw [choose_eq, List.mem_insertionSort]
  have hperm := (selection_subperm (candidates_nodup messages g)).perm_of_length_le hlength
  exact hperm.mem_iff.mpr hx

theorem choose_ordered (messages : OrdMap Offset Message) (g : GroupState) (max pollCount : Nat) :
    (choose messages g max pollCount).Pairwise fun x y =>
      y.1 < x.1 ∨ x.1 = y.1 ∧ x.2 < y.2 := by
  have hsorted : (choose messages g max pollCount).Pairwise deliveryLe := by
    rw [choose_eq]
    exact List.pairwise_insertionSort deliveryLe _
  have hne := List.pairwise_map.mp (choose_nodup messages g max pollCount)
  refine hsorted.imp₂ (fun x y hle hne => ?_) hne
  rcases hle with hlt | ⟨heq, hle⟩
  · exact .inl hlt
  · exact .inr ⟨heq, lt_of_le_of_ne hle hne⟩

/-- The items are what was chosen, with its priority. -/
theorem leaseChosen_ranked {messages : OrdMap Offset Message} {d : Nat} :
    ∀ {l : List Ranked} {g : GroupState} {n : LeaseId},
      (∀ x ∈ l, ∃ m, messages.get? x.2 = some m ∧ m.priority = x.1) →
      (leaseChosen messages d l g n).2.2.map (fun item => (item.priority, item.offset)) = l := by
  intro l
  induction l with
  | nil => exact fun _ => rfl
  | cons x rest ih =>
      intro g n hret
      obtain ⟨⟨m, hm, hp⟩, hrest⟩ := List.forall_mem_cons.mp hret
      simp only [leaseChosen, hm, Option.map_some, Option.toList_some, List.singleton_append,
        List.map_cons, ih hrest]
      exact congrArg (· :: rest) (Prod.ext hp rfl)

/-- The group after the leases are taken. -/
theorem leaseChosen_view {messages : OrdMap Offset Message} {d : Nat} {b : Offset} :
    ∀ {l : List Ranked} {g : GroupState} {n : LeaseId}, n + l.length ≤ u64Max →
      GroupSound n b g → (offsets l).Nodup → (∀ x ∈ l, Deliverable messages g x.2 ∧ x.2 < b) →
      GroupSound (n + l.length) b (leaseChosen messages d l g n).1 ∧
      (leaseChosen messages d l g n).1.view = g.view.take d (leaseChosen messages d l g n).2.2 := by
  intro l
  induction l with
  | nil => exact fun _ hg _ _ => ⟨hg, rfl⟩
  | cons x rest ih =>
      intro g n hroom hg hnd hdel
      obtain ⟨⟨hx, hxb⟩, hrest⟩ := List.forall_mem_cons.mp hdel
      obtain ⟨m, hm⟩ := hx.retained
      obtain ⟨hfresh, hnd⟩ := List.nodup_cons.mp hnd
      have hsum : n + 1 + rest.length = n + (x :: rest).length :=
        Nat.add_right_comm n 1 rest.length
      have hlt : n < u64Max := (Nat.lt_add_of_pos_right (Nat.succ_pos _)).trans_le hroom
      have hdel' : ∀ y ∈ rest, Deliverable messages (g.takeLease n x.2 d) y.2 ∧ y.2 < b := by
        intro y hy
        have hne : y.2 ≠ x.2 := fun heq => hfresh (heq ▸ List.mem_map_of_mem hy)
        obtain ⟨hret, habove, hunacked, hfree⟩ := (hrest y hy).1
        refine ⟨⟨hret, habove, hunacked, ?_⟩, (hrest y hy).2⟩
        rw [GroupState.takeLease, OrdMap.get?_insert_ne _ _ hne]
        exact hfree
      obtain ⟨hsound, hview⟩ :=
        ih (n := n + 1) (hsum ▸ hroom) (hg.takeLease d hx hxb) hnd hdel'
      have hids := (leaseChosen_items (d := d) (g := g.takeLease n x.2 d) (n := n + 1)
        fun y hy => (hdel' y hy).1.retained).2 (hsum ▸ Nat.le_succ_of_le hroom)
      simp only [leaseChosen, satAdd_one_of_lt hlt, hm, Option.map_some, Option.toList_some,
        List.singleton_append]
      refine ⟨hsum ▸ hsound, ?_⟩
      rw [hview, GroupState.view_takeLease g x.2 m d, ← Consumer.take_cons]
      intro item hitem
      -- the later ids are higher
      have hmem : item.leaseId ∈ List.range' (n + 1) rest.length :=
        hids ▸ List.mem_map_of_mem hitem
      exact (Nat.lt_of_succ_le (List.mem_range'_1.mp hmem).1).ne'

namespace TopicModels

/-! ## Reclaiming and sweeping -/

theorem first_splitOff (h : TopicModels n a t) {b : Offset} (hfirst : t.first ≤ b)
    (hend : b ≤ t.nextOffset) :
    ({ t with messages := t.messages.splitOff b } : TopicState).first = b := by
  have hkeys : ∀ {o m}, (t.messages.splitOff b).get? o = some m →
      b ≤ o ∧ t.messages.get? o = some m := by
    intro o m hm
    rw [OrdMap.get?_splitOff] at hm
    split_ifs at hm with hle
    exact ⟨hle, hm⟩
  rw [TopicState.first]
  rcases Nat.lt_or_eq_of_le hend with hlt | heq
  · obtain ⟨m, hm⟩ := h.shape.dense b hfirst hlt
    have hkey : (t.messages.splitOff b).firstKey? = some b := by
      refine OrdMap.firstKey?_eq_some.mpr ⟨⟨m, ?_⟩, fun o m' hm' => (hkeys hm').1⟩
      rw [OrdMap.get?_splitOff, if_pos le_rfl, hm]
    rw [hkey]
    rfl
  · -- nothing is left
    have hkey : (t.messages.splitOff b).firstKey? = none := by
      refine OrdMap.firstKey?_eq_none.mpr fun o => ?_
      cases hm : (t.messages.splitOff b).get? o with
      | none => rfl
      | some m =>
          obtain ⟨hle, hget⟩ := hkeys hm
          exact absurd (h.sound.keys_lt hget) (not_lt.mpr (heq ▸ hle))
    rw [hkey]
    exact heq.symm

/-- What reclaiming leaves starts where the slowest group is. -/
theorem reclaim_first (h : TopicModels n a t) (hne : t.groups ≠ ∅) :
    ∃ γ g, t.groups.get? γ = some g ∧ (reclaim t).first = g.ackWatermark ∧
      ∀ γ' g', t.groups.get? γ' = some g' → g.ackWatermark ≤ g'.ackWatermark := by
  have hvalues : t.groups.values.map (·.ackWatermark) ≠ [] := by
    intro hnil
    rw [List.map_eq_nil_iff] at hnil
    refine hne (OrdMap.size_eq_zero.mp ?_)
    rw [OrdMap.size, ← List.length_map Prod.snd]
    exact congrArg List.length hnil
  obtain ⟨w, hmin⟩ := Option.ne_none_iff_exists'.mp (mt List.min?_eq_none_iff.mp hvalues)
  obtain ⟨hmem, hleast⟩ := List.min?_eq_some_iff.mp hmin
  obtain ⟨g, hg, rfl⟩ := List.mem_map.mp hmem
  obtain ⟨γ, hγ⟩ := OrdMap.mem_values.mp hg
  refine ⟨γ, g, hγ, ?_, fun γ' g' hg' =>
    hleast _ (List.mem_map_of_mem (OrdMap.mem_values.mpr ⟨γ', hg'⟩))⟩
  have hfirst := (h.shape.watermark hγ).1
  have hend : g.ackWatermark ≤ t.nextOffset := (h.sound.groups hγ).watermark_le
  have hmessages : (reclaim t).first = (reclaimMessages t).first :=
    first_congr (gcIdleGroups_messages _) (gcIdleGroups_nextOffset _)
  rw [hmessages, reclaimMessages, hmin]
  simp only
  split_ifs with hlow
  · exact h.first_splitOff hfirst hend
  · refine le_antisymm hfirst ?_
    rw [TopicState.first]
    cases hkey : t.messages.firstKey? with
    | none => exact hend
    | some o =>
        rw [hkey] at hlow
        simpa using hlow

theorem finished_isGreatest (h : TopicModels n a t) (hnext : t.nextOffset < u64Max)
    (hne : t.groups ≠ ∅) : IsGreatest {n | a.Finished n} (reclaim t).first := by
  obtain ⟨γ, g, hg, hfirst, hleast⟩ := h.reclaim_first hne
  have hlength := h.recorded.length_eq hnext
  rw [hfirst]
  constructor
  · refine ⟨hlength.symm ▸ (h.sound.groups hg).watermark_le, fun γ' c hc o ho => ?_⟩
    rw [h.get?_consumers] at hc
    obtain ⟨g', hg', rfl⟩ := Option.map_eq_some_iff.mp hc
    exact Or.inl (lt_of_lt_of_le ho (hleast γ' g' hg'))
  · rintro m ⟨-, hdone⟩
    -- the slowest group is not done with its watermark
    have hview : a.consumers.get? γ = some g.view := by
      rw [h.get?_consumers, hg]
      rfl
    by_contra hlt
    have hleast := Watermark.Canonical.isLeast (h.sound.groups hg).canonical.acked_gt
    exact hleast.1 (hdone γ g.view hview (not_le.mp hlt))

theorem reclaim (h : TopicModels n a t) (hn : n < u64Max) (hnext : t.nextOffset < u64Max) :
    ∃ a', a.Reclaims a' ∧ TopicModels n a' (reclaim t) := by
  have hgroups : (HermesMq.reclaim t).groups = t.groups :=
    reclaim_groups_of_small h.shape.size_le_threshold
  have hconsumers : a.consumers = ∅ ↔ t.groups = ∅ := by
    rw [← OrdMap.size_eq_zero, ← OrdMap.size_eq_zero, h.consumers, OrdMap.size_mapVals]
  refine ⟨{ a with kept := (HermesMq.reclaim t).first }, ?_, ?_⟩
  · by_cases hempty : t.groups = ∅
    · have hself : (HermesMq.reclaim t).first = t.first := by
        rw [HermesMq.reclaim, reclaimMessages, hempty]
        exact first_congr (gcIdleGroups_messages _) (gcIdleGroups_nextOffset _)
      refine .inl ⟨hconsumers.mpr hempty, ?_⟩
      rw [hself, ← h.kept]
    · exact .inr ⟨mt hconsumers.mp hempty, _, h.finished_isGreatest hnext hempty, rfl⟩
  · have hsteps : TopicSteps (.deleteTopic "") "" (t, n) (HermesMq.reclaim t, n) :=
      TopicSteps.single .reclaim trivial trivial
    refine h.steps rfl hsteps hn (by rwa [reclaim_nextOffset]) rfl rfl rfl ?_ ?_
    · rw [hgroups]
      exact h.consumers
    · rw [TopicState.settings_reclaim]
      exact h.settings

/-- Other groups, with what they hold still in the log. -/
theorem regroup (h : TopicModels n a t) {groups : OrdMap GroupId GroupState}
    (hsize : groups.size ≤ maxGroupsPerTopic)
    (hgroups : ∀ γ g, groups.get? γ = some g →
      t.first ≤ g.ackWatermark ∧ GroupSound n' t.nextOffset g) :
    TopicModels n' { a with consumers := groups.mapVals fun _ g => g.view }
      { t with groups := groups } where
  shape :=
    { nextOffset_le := h.shape.nextOffset_le
      keys_le := h.shape.keys_le
      dense := h.shape.dense
      watermark := fun hg => ⟨(hgroups _ _ hg).1,
        (hgroups _ _ hg).2.watermark_le.trans h.shape.nextOffset_le⟩
      leases := fun hg => (hgroups _ _ hg).2.agree
      size_le := hsize }
  sound :=
    { message_offset := h.sound.message_offset
      keys_lt := h.sound.keys_lt
      dedup := h.sound.dedup
      order_le := h.sound.order_le
      groups := fun hg => (hgroups _ _ hg).2 }
  recorded := h.recorded.keep rfl rfl rfl rfl
  kept := h.kept
  consumers := rfl
  settings := h.settings

theorem awake_eq (h : TopicModels n a t) (now : Nat) :
    a.awake now = (sweepIdleGroups t now).1.groups.mapVals fun _ g => g.view := by
  have hstamped : (a.consumers.mapVals fun _ c => c.stamp now) =
      (t.groups.mapVals fun _ g => g.stamp now).mapVals fun _ g => g.view := by
    refine OrdMap.ext_get? fun γ => ?_
    rw [h.consumers]
    simp only [OrdMap.get?_mapVals, Option.map_map]
    refine congrArg (Option.map · (t.groups.get? γ)) (funext fun g => ?_)
    exact (GroupState.view_stamp g now).symm
  rw [BrokerTopic.awake, hstamped]
  refine (OrdMap.mapVals_filter_vals fun γ g _ => ?_).symm
  exact Bool.eq_iff_iff.mpr (GroupState.not_idle_view.symm.trans (by simp))

theorem sweep (h : TopicModels n a t) (hn : n < u64Max) (hnext : t.nextOffset < u64Max)
    (now : Nat) : ∃ a', a.Sweeps now a' ∧ TopicModels n a' (sweepAndReclaim t now) := by
  have hawake := h.awake_eq now
  have hswept : TopicModels n { a with consumers := a.awake now } (sweepIdleGroups t now).1 := by
    rw [hawake]
    refine h.regroup ((sweepIdleGroups_size_le t now).trans h.shape.size_le) fun γ g' hg' => ?_
    rw [sweepIdleGroups_groups] at hg'
    obtain ⟨g, hg, rfl⟩ := Option.map_eq_some_iff.mp (Option.filter_eq_some_iff.mp hg').1
    rw [GroupState.stamp_ackWatermark]
    exact ⟨(h.shape.watermark hg).1, (h.sound.groups hg).congr (GroupState.stamp_ackWatermark ..)
      (GroupState.stamp_ackedAbove ..) (GroupState.stamp_inFlight ..)
      (GroupState.stamp_leasedOffsets ..)⟩
  have hsize : (a.awake now).size = a.consumers.size ↔ (sweepIdleGroups t now).2 = false := by
    rw [hawake, h.consumers, OrdMap.size_mapVals, OrdMap.size_mapVals]
    simp [sweepIdleGroups]
  simp only [BrokerTopic.Sweeps, hsize, sweepAndReclaim]
  split_ifs with hkeep hflag hflag
  · rw [hkeep] at hflag
    cases hflag
  · exact ⟨_, rfl, hswept⟩
  · exact hswept.reclaim hn hnext
  · exact absurd (Bool.eq_false_iff.mpr hflag) hkeep

/-! ## Entering a group -/

theorem full (h : TopicModels n a t) {γ : GroupId} {now : Option Nat}
    (hentry : groupEntry t γ now = none) : a.Full γ := by
  rw [groupEntry] at hentry
  split_ifs at hentry with hfull
  rw [Bool.and_eq_true, Bool.not_eq_true', OrdMap.contains_eq_false, decide_eq_true_eq] at hfull
  refine ⟨by rw [h.get?_consumers, hfull.1]; rfl, ?_⟩
  rw [h.consumers, OrdMap.size_mapVals]
  exact hfull.2

/-- The group that a poll or a commit works on. -/
structure Entered (n : LeaseId) (a : BrokerTopic) (t : TopicState) (γ : GroupId)
    (now : Option Nat) (g : GroupState) : Prop where
  enters : a.Enters γ now g.view
  first_le : t.first ≤ g.ackWatermark
  sound : GroupSound n t.nextOffset g
  room : ∀ g', (t.groups.insert γ g').size ≤ maxGroupsPerTopic

theorem entered (h : TopicModels n a t) {γ : GroupId} {now : Option Nat} {g : GroupState}
    (hentry : groupEntry t γ now = some g) : Entered n a t γ now g := by
  rw [groupEntry] at hentry
  split_ifs at hentry with hfull
  have hroom : t.groups.contains γ = false → t.groups.size < maxGroupsPerTopic := by
    intro hnew
    simpa [hnew] using hfull
  have hsize : ∀ g', (t.groups.insert γ g').size ≤ maxGroupsPerTopic := by
    intro g'
    rw [OrdMap.size_insert]
    split_ifs with hold
    · exact h.shape.size_le
    · exact hroom (Bool.eq_false_iff.mpr hold)
  cases hg : t.groups.get? γ with
  | some g' =>
      rw [hg] at hentry
      obtain rfl : g' = g := Option.some.inj hentry
      refine ⟨.inl ?_, (h.shape.watermark hg).1, h.sound.groups hg, hsize⟩
      rw [h.get?_consumers, hg]
      rfl
  | none =>
      rw [hg] at hentry
      obtain rfl : freshGroup t now = g := Option.some.inj hentry
      refine ⟨.inr ⟨?_, ?_, ?_⟩, le_rfl, freshGroup_sound h.sound now, hsize⟩
      · rw [h.get?_consumers, hg]
        rfl
      · rw [h.consumers, OrdMap.size_mapVals]
        exact hroom (OrdMap.contains_eq_false.mpr hg)
      · refine Consumer.ext ?_ rfl rfl
        rw [h.kept]
        exact (Set.union_eq_left.mpr fun o ho => absurd ho (Finset.notMem_empty o))

/-- The group comes back changed, with what it holds still in the log. -/
theorem put (h : TopicModels n a t) {γ : GroupId} {now : Option Nat} {g g' : GroupState}
    (hentered : Entered n a t γ now g) (hfirst : t.first ≤ g'.ackWatermark)
    (hsound : GroupSound n' t.nextOffset g') (hn : n ≤ n') :
    TopicModels n' (a.put γ g'.view) (putGroup t γ g') := by
  have hconsumers : a.consumers.insert γ g'.view =
      (t.groups.insert γ g').mapVals fun _ g => g.view := by
    rw [OrdMap.mapVals_insert, h.consumers]
  rw [BrokerTopic.put, hconsumers]
  refine h.regroup (hentered.room g') fun γ' g₁ hg₁ => ?_
  rw [OrdMap.get?_insert] at hg₁
  split_ifs at hg₁ with hγ
  · obtain rfl := Option.some.inj hg₁
    exact ⟨hfirst, hsound⟩
  · exact ⟨(h.shape.watermark hg₁).1, (h.sound.groups hg₁).mono hn le_rfl⟩

/-! ## Polling -/

theorem retained_iff (h : TopicModels n a t) (hnext : t.nextOffset < u64Max) {o : Offset} :
    a.kept ≤ o ∧ o < a.log.length ↔ ∃ m, t.messages.get? o = some m := by
  rw [h.kept, h.recorded.length_eq hnext]
  constructor
  · exact fun ⟨hfirst, hlt⟩ => h.shape.dense o hfirst hlt
  · exact fun ⟨m, hm⟩ => ⟨first_le_of_get hm, h.sound.keys_lt hm⟩

theorem available_iff (h : TopicModels n a t) (hnext : t.nextOffset < u64Max) {g : GroupState}
    (hg : GroupSound n t.nextOffset g) {o : Offset} :
    a.Available g.view o ↔ Deliverable t.messages g o := by
  have hholds : g.view.Holds o ↔ g.leasedOffsets.get? o ≠ none := by
    constructor
    · rintro ⟨id, l, hl, rfl⟩ hnone
      have hleased := hg.agree.leased hl
      rw [hnone] at hleased
      cases hleased
    · intro hne
      obtain ⟨d, hd⟩ := Option.ne_none_iff_exists'.mp hne
      obtain ⟨id, hid⟩ := hg.backed o d hd
      exact ⟨id, _, hid, rfl⟩
  rw [BrokerTopic.Available, hholds, not_not, ← and_assoc, h.retained_iff hnext]
  constructor
  · rintro ⟨hretained, hdone, hfree⟩
    exact ⟨hretained, not_lt.mp fun hlow => hdone (.inl hlow), fun hacked => hdone (.inr hacked),
      hfree⟩
  · intro hdel
    exact ⟨hdel.retained, hdel.not_done, hdel.unleased⟩

theorem delivers (h : TopicModels n a t) (hnext : t.nextOffset < u64Max) {g : GroupState}
    (hg : GroupSound n t.nextOffset g) (max pollCount d : Nat)
    (hroom : n + (choose t.messages g max pollCount).length ≤ u64Max) :
    a.Delivers g.view max n
      (leaseChosen t.messages d (choose t.messages g max pollCount) g n).2.2 := by
  have hret : ∀ x ∈ choose t.messages g max pollCount, ∃ m, t.messages.get? x.2 = some m ∧
      m.priority = x.1 := fun x hx => (mem_candidates.mp (mem_candidates_of_mem_choose hx)).2
  have hids := (leaseChosen_items (d := d) (g := g) (n := n)
    fun x hx => (hret x hx).imp fun _ hm => hm.1).2 (Nat.le_succ_of_le hroom)
  have hranked := leaseChosen_ranked (d := d) (g := g) (n := n) hret
  generalize hitems : (leaseChosen t.messages d (choose t.messages g max pollCount) g n).2.2 =
    items at hids hranked ⊢
  have hlength : items.length = (choose t.messages g max pollCount).length := by
    rw [← hranked, List.length_map]
  have hmem : ∀ item ∈ items, (item.priority, item.offset) ∈ choose t.messages g max pollCount := by
    intro item hitem
    rw [← hranked]
    exact List.mem_map_of_mem hitem
  refine ⟨hlength ▸ hids, fun item hitem => ?_, fun item hitem => ?_, ?_, ?_, fun hshort o ho => ?_⟩
  · exact (h.available_iff hnext hg).mpr (mem_choose (hmem item hitem))
  · obtain ⟨-, m, hm, hpriority, hcontent, hpayload, hts⟩ := mem_leaseChosen (hitems ▸ hitem)
    obtain ⟨-, logged, hlogged, rfl⟩ := (h.message_iff hnext).mp hm
    refine ⟨logged, hlogged, ?_⟩
    cases item
    simp only [Delivered.mk.injEq, deliveredItem]
    exact ⟨trivial, trivial, hpriority, hcontent, hpayload, hts⟩
  · have hordered := choose_ordered t.messages g max pollCount
    rw [← hranked, List.pairwise_map] at hordered
    exact hordered
  · rw [hlength, length_choose]
    exact Nat.min_le_left ..
  · have hdel := (h.available_iff hnext hg).mp ho
    obtain ⟨m, hm⟩ := hdel.retained
    have hchosen : (m.priority, o) ∈ choose t.messages g max pollCount :=
      mem_choose_of_short (hlength ▸ hshort) (mem_candidates.mpr ⟨hdel, m, hm, rfl⟩)
    rw [← hranked] at hchosen
    obtain ⟨item, hitem, heq⟩ := List.mem_map.mp hchosen
    exact List.mem_map.mpr ⟨item, hitem, congrArg Prod.snd heq⟩

/-- The group a poll leaves, and what it hands out. -/
theorem pollGroup (h : TopicModels n a t) (hnext : t.nextOffset < u64Max) {g : GroupState}
    (hg : GroupSound n t.nextOffset g) {max vis ts : Nat}
    {r : GroupState × LeaseId × List Delivered} (hr : pollGroup t.messages g max vis ts n = r)
    (hn' : r.2.1 < u64Max) :
    r.2.1 = n + r.2.2.length ∧ r.1.ackWatermark = g.ackWatermark ∧
      GroupSound r.2.1 t.nextOffset r.1 ∧ a.Delivers (g.beginPoll ts).view max n r.2.2 ∧
      r.1.view = (g.beginPoll ts).view.take (satAdd ts vis) r.2.2 := by
  have hbegun : GroupSound n t.nextOffset (g.beginPoll ts) :=
    (hg.dropLeases fun l => l.deadlineMs ≤ ts).congr rfl rfl rfl rfl
  rw [pollGroup_eq] at hr
  subst hr
  have hcounter := (leaseChosen_ids _ _ _ _ _ hn').1
  rw [hcounter] at hn'
  have hdelivers := h.delivers hnext hbegun max g.pollCount (satAdd ts vis) hn'.le
  have hdel : ∀ x ∈ choose t.messages (g.beginPoll ts) max g.pollCount,
      Deliverable t.messages (g.beginPoll ts) x.2 ∧ x.2 < t.nextOffset := by
    intro x hx
    obtain ⟨m, hm⟩ := (mem_choose hx).retained
    exact ⟨mem_choose hx, h.sound.keys_lt hm⟩
  have hoffsets := (leaseChosen_items (d := satAdd ts vis) (g := g.beginPoll ts) (n := n)
    fun x hx => (hdel x hx).1.retained).1
  obtain ⟨hsound, hview⟩ := leaseChosen_view (d := satAdd ts vis) hn'.le hbegun
    (choose_nodup _ _ max g.pollCount) hdel
  have hlength := congrArg List.length hoffsets
  rw [List.length_map, offsets, List.length_map] at hlength
  refine ⟨hcounter.trans (congrArg (n + ·) hlength.symm), ?_, hcounter.symm ▸ hsound, hdelivers,
    hview⟩
  rw [(leaseChosen_same ..).ackWatermark, GroupState.beginPoll_ackWatermark]

theorem poll (h : TopicModels n a t) (hn : n < u64Max) (hnext : t.nextOffset < u64Max)
    {γ : GroupId} {max vis ts : Nat} (hn' : (pollTopic t γ max vis ts n).2.1 < u64Max) :
    (pollTopic t γ max vis ts n).2.1 = n + (pollTopic t γ max vis ts n).2.2.length ∧
    ∃ a', BrokerTopic.Polls γ max vis ts n (pollTopic t γ max vis ts n).2.2 a a' ∧
      TopicModels (pollTopic t γ max vis ts n).2.1 a' (pollTopic t γ max vis ts n).1 := by
  obtain ⟨swept, hsweeps, hswept⟩ := h.sweep hn hnext ts
  have hnext₁ : (sweepAndReclaim t ts).nextOffset < u64Max := by
    rwa [sweepAndReclaim_nextOffset]
  cases hentry : groupEntry (sweepAndReclaim t ts) γ (some ts) with
  | none =>
      simp only [pollTopic, hentry]
      exact ⟨rfl, swept, ⟨swept, hsweeps, .inl ⟨hswept.full hentry, rfl, rfl⟩⟩, hswept⟩
  | some g =>
      simp only [pollTopic, hentry] at hn' ⊢
      have hentered := hswept.entered hentry
      obtain ⟨hcounter, hwatermark, hsound, hdelivers, hview⟩ :=
        hswept.pollGroup hnext₁ hentered.sound rfl hn'
      have hput := hswept.put hentered (hwatermark ▸ hentered.first_le) hsound
        (hcounter ▸ Nat.le_add_right ..)
      refine ⟨hcounter, _, ⟨swept, hsweeps, .inr ⟨g.view, hentered.enters, ?_⟩⟩, hput⟩
      rw [← GroupState.view_beginPoll]
      exact ⟨hdelivers, by rw [hview]⟩

/-! ## Acks, nacks and commits -/

/-- A change of a group that the change of a consumer stands for. -/
def Follows (n : LeaseId) (b : Offset) (f : GroupState → GroupState)
    (f' : Consumer → Consumer) : Prop :=
  ∀ g, GroupSound n b g → GroupSound n b (f g) ∧ g.ackWatermark ≤ (f g).ackWatermark ∧
    (f g).view = f' g.view

theorem Follows.foldl {b : Offset} {f : GroupState → LeaseId → GroupState}
    {f' : Consumer → LeaseId → Consumer} (hf : ∀ id, Follows n b (f · id) (f' · id))
    (ids : List LeaseId) : Follows n b (ids.foldl f) (ids.foldl f') := by
  induction ids with
  | nil => exact fun g hg => ⟨hg, le_rfl, rfl⟩
  | cons id rest ih =>
      intro g hg
      obtain ⟨hsound, hle, hview⟩ := hf id g hg
      obtain ⟨hsound', hle', hview'⟩ := ih (f g id) hsound
      exact ⟨hsound', hle.trans hle', hview'.trans (congrArg (rest.foldl f') hview)⟩

theorem update (h : TopicModels n a t) {γ : GroupId} {f : GroupState → GroupState}
    {f' : Consumer → Consumer} (hf : Follows n t.nextOffset f f') :
    TopicModels n (a.update γ f') (updateGroup t γ f) := by
  have hconsumers : a.consumers.modify γ f' =
      (t.groups.modify γ f).mapVals fun _ g => g.view := by
    rw [h.consumers]
    exact (OrdMap.mapVals_modify fun g hg => (hf g (h.sound.groups hg)).2.2).symm
  rw [updateGroup_eq, BrokerTopic.update, hconsumers]
  refine h.regroup ?_ fun γ' g' hg' => ?_
  · have hsize := updateGroup_size t γ f
    rw [updateGroup_eq] at hsize
    exact hsize.le.trans h.shape.size_le
  · rw [OrdMap.get?_modify] at hg'
    obtain ⟨g, hg, rfl⟩ := Option.map_eq_some_iff.mp hg'
    have hfirst := (h.shape.watermark hg).1
    split_ifs
    · obtain ⟨hsound, hle, -⟩ := hf g (h.sound.groups hg)
      exact ⟨hfirst.trans hle, hsound⟩
    · exact ⟨hfirst, h.sound.groups hg⟩

theorem acks (h : TopicModels n a t) (hn : n < u64Max) (hnext : t.nextOffset < u64Max)
    (γ : GroupId) (ids : List LeaseId) :
    ∃ a', BrokerTopic.Acks γ ids a a' ∧
      TopicModels n a' (HermesMq.reclaim (ids.foldl (ackTopic · γ) t)) := by
  have hf : ∀ id, Follows n t.nextOffset (·.ackLease id) (·.ack id) := fun id g hg =>
    ⟨hg.ackLease id, (GroupState.ackLease_watermark (hg.watermark_le.trans hnext.le) id).1,
      GroupState.view_ackLease hnext.le hg id⟩
  have hfold : ids.foldl (ackTopic · γ) t = updateGroup t γ (ids.foldl GroupState.ackLease) :=
    foldl_updateGroup t γ (fun id g => g.ackLease id) ids
  rw [hfold]
  exact (h.update (Follows.foldl hf ids)).reclaim hn (by rwa [updateGroup_nextOffset])

theorem nacks (h : TopicModels n a t) (γ : GroupId) (ids : List LeaseId) :
    ∃ a', BrokerTopic.Nacks γ ids a a' ∧ TopicModels n a' (ids.foldl (nackTopic · γ) t) := by
  have hf : ∀ id, Follows n t.nextOffset (·.removeLease id) (·.nack id) := fun id g hg =>
    ⟨hg.removeLease id, (GroupState.sameButLeases_removeLease g id).ackWatermark.ge,
      GroupState.view_removeLease g id⟩
  have hfold : ids.foldl (nackTopic · γ) t = updateGroup t γ (ids.foldl GroupState.removeLease) :=
    foldl_updateGroup t γ (fun id g => g.removeLease id) ids
  rw [hfold]
  exact ⟨_, rfl, h.update (Follows.foldl hf ids)⟩

theorem Follows.commit {b upto : Offset} (hb : b ≤ u64Max) (hupto : upto ≤ b)
    (now : Option Nat) : Follows n b (fun g => (g.advanceWatermark upto).touch now)
      fun c => (c.finish (Set.Iio upto)).touch now := by
  intro g hg
  have hwatermark := GroupState.advanceWatermark_watermark (hg.watermark_le.trans hb)
    (hupto.trans hb)
  refine ⟨?_, ?_, ?_⟩
  · exact (hg.advanceWatermark hupto).congr (GroupState.touch_ackWatermark ..)
      (GroupState.touch_ackedAbove ..) (GroupState.touch_inFlight ..)
      (GroupState.touch_leasedOffsets ..)
  · rw [GroupState.touch_ackWatermark]
    exact (le_max_left ..).trans hwatermark.1
  · rw [GroupState.view_touch, GroupState.view_advanceWatermark hb hg.canonical hupto]

theorem commit (h : TopicModels n a t) (hn : n < u64Max) (hnext : t.nextOffset < u64Max)
    (γ : GroupId) (offset : Offset) (now : Option Nat) :
    ∃ a', BrokerTopic.Commits γ offset now a a' ∧
      TopicModels n a' (HermesMq.reclaim (commitTopic t γ offset now)) := by
  have hsweep : ∃ swept, now.elim (swept = a) (a.Sweeps · swept) ∧
      TopicModels n swept (now.elim t (sweepAndReclaim t)) := by
    cases now with
    | none => exact ⟨a, rfl, h⟩
    | some ts => exact h.sweep hn hnext ts
  obtain ⟨swept, hsweeps, hswept⟩ := hsweep
  have hnext₁ : (now.elim t (sweepAndReclaim t)).nextOffset < u64Max := by
    cases now with
    | none => exact hnext
    | some ts => exact (sweepAndReclaim_nextOffset t ts).symm ▸ hnext
  simp only [commitTopic]
  generalize now.elim t (sweepAndReclaim t) = t₁ at hswept hnext₁ ⊢
  cases hentry : groupEntry t₁ γ now with
  | none =>
      obtain ⟨a', hreclaims, hmodels⟩ := hswept.reclaim hn hnext₁
      exact ⟨a', ⟨swept, swept, hsweeps, .inl ⟨hswept.full hentry, rfl⟩, hreclaims⟩, hmodels⟩
  | some g =>
      have hentered := hswept.entered hentry
      obtain ⟨hsound, hle, hview⟩ :=
        Follows.commit hnext₁.le (min_le_right offset _) now g hentered.sound
      have hput := hswept.put hentered (hentered.first_le.trans hle) hsound le_rfl
      obtain ⟨a', hreclaims, hmodels⟩ := hput.reclaim hn hnext₁
      rw [hview, ← hswept.recorded.length_eq hnext₁] at hreclaims
      exact ⟨a', ⟨swept, _, hsweeps, .inr ⟨g.view, hentered.enters, rfl⟩, hreclaims⟩, hmodels⟩

/-! ## Reading -/

theorem waits_of_none (h : TopicModels n a t) (hnext : t.nextOffset < u64Max) {γ : GroupId}
    (hγ : t.groups.get? γ = none) (now : Nat) : a.Waits γ now ↔ t.messages ≠ ∅ := by
  rw [BrokerTopic.Waits, h.get?_consumers, hγ]
  constructor
  · rintro ⟨o, hkept, hlt, -⟩ hempty
    obtain ⟨m, hm⟩ := (h.retained_iff hnext).mp ⟨hkept, hlt⟩
    rw [hempty] at hm
    cases hm
  · intro hne
    rcases first_cases t with hm | ⟨-, hempty⟩
    · obtain ⟨hkept, hlt⟩ := (h.retained_iff hnext).mpr hm
      refine ⟨t.first, hkept, hlt, not_lt.mpr hkept, ?_⟩
      rintro ⟨id, l, hl, -⟩
      cases hl
    · exact absurd (OrdMap.ext_get? hempty) hne

theorem waits_of_some (h : TopicModels n a t) (hnext : t.nextOffset < u64Max) {γ : GroupId}
    {g : GroupState} (hγ : t.groups.get? γ = some g) (now : Nat) :
    a.Waits γ now ↔ ¬g.Holds t.messages now := by
  have hg := h.sound.groups hγ
  have hholds : ∀ o, (g.view.expire now).Holds o ↔
      ∃ d, g.leasedOffsets.get? o = some d ∧ now < d := by
    intro o
    constructor
    · rintro ⟨id, l, hl, rfl⟩
      obtain ⟨hget, hlive⟩ := Option.filter_eq_some_iff.mp hl
      exact ⟨l.deadlineMs, hg.agree.leased hget, of_decide_eq_true hlive⟩
    · rintro ⟨d, hd, hlive⟩
      obtain ⟨id, hid⟩ := hg.backed o d hd
      exact ⟨id, _, Option.filter_eq_some_iff.mpr ⟨hid, decide_eq_true hlive⟩, rfl⟩
  rw [BrokerTopic.Waits, h.get?_consumers, hγ, GroupState.Holds]
  push Not
  refine exists_congr fun o => ?_
  show a.Available (g.view.expire now) o ↔ _
  rw [BrokerTopic.Available, hholds, ← and_assoc, h.retained_iff hnext, exists_and_right]
  push Not
  exact Iff.rfl

end TopicModels

end HermesMq
