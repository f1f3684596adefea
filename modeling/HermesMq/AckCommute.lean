import HermesMq.QueueInvariants

/-!
# Acks and nacks commute

What acks and nacks leave behind does not depend on their order, as long
as no lease is both acked and nacked.

The watermark of a group is the first offset it has not acked, and what
it keeps above is what it has acked beyond (`GroupState.Normal`): both are
read off the set of acked offsets, which has no order. Reclaiming after
every ack or once at the end is the same because watermarks only rise
(`reclaim_update_reclaim`). Together, `settleTopic_comm`.
-/

namespace HermesMq

/-! ## The acked offsets of a group -/

theorem mem_absorb_of_lt {n : Nat} {w o : Offset} {s : Finset Offset} (hw : w ≤ u64Max)
    (ho : o ∈ s) (hlt : (absorb n w s).1 < o) : o ∈ (absorb n w s).2 := by
  induction n generalizing w s with
  | zero => exact ho
  | succ n ih =>
      rw [absorb] at hlt ⊢
      split_ifs at hlt ⊢ with hmem
      · have hle := (le_satAdd hw 1).trans (le_absorb (satAdd_le_max w 1) n (s.erase w))
        have hne : o ≠ w := fun h => absurd hlt (not_lt.mpr (h ▸ hle))
        exact ih (satAdd_le_max ..) (Finset.mem_erase.mpr ⟨hne, ho⟩) hlt
      · exact ho

/-- The loop takes out of the set what it passes, and nothing else. -/
theorem absorb_snd {n : Nat} {w : Offset} {s : Finset Offset} (hw : w ≤ u64Max)
    (hn : s.card ≤ n) (hs : ∀ o ∈ s, w ≤ o) :
    (absorb n w s).2 = s.filter ((absorb n w s).1 < ·) := by
  ext o
  rw [Finset.mem_filter]
  constructor
  · exact fun ho => ⟨absorb_subset _ _ _ ho, absorb_gt hn hs o ho⟩
  · exact fun ⟨ho, hlt⟩ => mem_absorb_of_lt hw ho hlt

namespace GroupState

/-- Everything acked up to the watermark has been absorbed into it. -/
structure Normal (g : GroupState) : Prop where
  watermark_le : g.ackWatermark ≤ u64Max
  acked_gt : ∀ o ∈ g.ackedAbove, g.ackWatermark < o

namespace Normal

variable {g g' : GroupState}

theorem removeLease (h : g.Normal) (id : LeaseId) : (g.removeLease id).Normal := by
  have hs := sameButLeases_removeLease g id
  constructor
  · exact hs.ackWatermark ▸ h.watermark_le
  · rw [hs.ackWatermark, hs.ackedAbove]
    exact h.acked_gt

/-- An insertion at or above the watermark of a normal group. -/
theorem insert_ge (h : g.Normal) {a : Offset} (ha : g.ackWatermark ≤ a) :
    ∀ o ∈ insert a g.ackedAbove, g.ackWatermark ≤ o := by
  intro o ho
  rcases Finset.mem_insert.mp ho with rfl | ho
  · exact ha
  · exact (h.acked_gt o ho).le

theorem markAcked_ackedAbove (h : g.Normal) (a : Offset) :
    (g.markAcked a).ackedAbove =
      (insert a g.ackedAbove).filter ((g.markAcked a).ackWatermark < ·) := by
  unfold GroupState.markAcked
  split_ifs with hlt
  · rw [Finset.filter_insert, if_neg (not_lt.mpr hlt.le), Finset.filter_true_of_mem h.acked_gt]
  · exact absorb_snd h.watermark_le le_rfl (h.insert_ge (not_lt.mp hlt))

theorem markAcked (h : g.Normal) (a : Offset) : (g.markAcked a).Normal := by
  refine ⟨(markAcked_watermark h.watermark_le a).2, fun o ho => ?_⟩
  rw [h.markAcked_ackedAbove a] at ho
  exact (Finset.mem_filter.mp ho).2

theorem ackLease (h : g.Normal) (id : LeaseId) : (g.ackLease id).Normal := by
  unfold GroupState.ackLease
  split
  · exact h
  · exact (h.removeLease id).markAcked _

/-- The watermark is the first offset that is not done. -/
theorem watermark_le_of_done (h : g.Normal) (h' : g'.Normal)
    (hdone : ∀ o < u64Max, g.Done o → g'.Done o) : g.ackWatermark ≤ g'.ackWatermark := by
  by_contra hlt
  rw [not_le] at hlt
  have hleast := Watermark.Canonical.isLeast h'.acked_gt
  exact hleast.1 (hdone _ (hlt.trans_le h.watermark_le) (Or.inl hlt))

theorem markAcked_markAcked_watermark (h : g.Normal) (a b : Offset) :
    ((g.markAcked a).markAcked b).ackWatermark ≤ ((g.markAcked b).markAcked a).ackWatermark := by
  refine ((h.markAcked a).markAcked b).watermark_le_of_done ((h.markAcked b).markAcked a)
    fun o ho => ?_
  rw [markAcked_done (h.markAcked a).watermark_le b ho, markAcked_done h.watermark_le a ho,
    markAcked_done (h.markAcked b).watermark_le a ho, markAcked_done h.watermark_le b ho]
  tauto

theorem markAcked_markAcked_ackedAbove (h : g.Normal) (a b : Offset) :
    ((g.markAcked a).markAcked b).ackedAbove = (insert b (insert a g.ackedAbove)).filter
      (((g.markAcked a).markAcked b).ackWatermark < ·) := by
  have hrise := (markAcked_watermark (h.markAcked a).watermark_le b).1
  rw [(h.markAcked a).markAcked_ackedAbove b, h.markAcked_ackedAbove a]
  ext o
  simp only [Finset.mem_filter, Finset.mem_insert]
  constructor
  · rintro ⟨rfl | ⟨ho, -⟩, hlt⟩
    · exact ⟨Or.inl rfl, hlt⟩
    · exact ⟨Or.inr ho, hlt⟩
  · rintro ⟨rfl | ho, hlt⟩
    · exact ⟨Or.inl rfl, hlt⟩
    · exact ⟨Or.inr ⟨ho, hrise.trans_lt hlt⟩, hlt⟩

end Normal

theorem markAcked_comm {g : GroupState} (h : g.Normal) (a b : Offset) :
    (g.markAcked a).markAcked b = (g.markAcked b).markAcked a := by
  have hw := le_antisymm (h.markAcked_markAcked_watermark a b)
    (h.markAcked_markAcked_watermark b a)
  ext1
  · exact hw
  · rw [h.markAcked_markAcked_ackedAbove a b, h.markAcked_markAcked_ackedAbove b a, hw,
      Finset.insert_comm]
  all_goals simp

/-! ## The leases of a group -/

theorem removeLease_comm (g : GroupState) (i j : LeaseId) :
    (g.removeLease i).removeLease j = (g.removeLease j).removeLease i := by
  rcases eq_or_ne i j with rfl | hne
  · rfl
  have hi := sameButLeases_removeLease g i
  have hj := sameButLeases_removeLease g j
  have hij := sameButLeases_removeLease (g.removeLease i) j
  have hji := sameButLeases_removeLease (g.removeLease j) i
  ext1
  · rw [hij.ackWatermark, hji.ackWatermark, hi.ackWatermark, hj.ackWatermark]
  · rw [hij.ackedAbove, hji.ackedAbove, hi.ackedAbove, hj.ackedAbove]
  · refine OrdMap.ext_get? fun id => ?_
    simp only [removeLease_inFlight]
    split_ifs <;> rfl
  · refine OrdMap.ext_get? fun o => ?_
    simp only [removeLease_leasedOffsets, removeLease_inFlight, if_neg hne, if_neg hne.symm]
    split_ifs <;> rfl
  · rw [hij.pollCount, hji.pollCount, hi.pollCount, hj.pollCount]
  · rw [hij.lastActiveMs, hji.lastActiveMs, hi.lastActiveMs, hj.lastActiveMs]

theorem markAcked_removeLease (g : GroupState) (a : Offset) (id : LeaseId) :
    (g.markAcked a).removeLease id = (g.removeLease id).markAcked a := by
  unfold removeLease
  rw [markAcked_inFlight]
  cases g.inFlight.get? id with
  | none => rfl
  | some l =>
      unfold markAcked
      split_ifs <;> rfl

/-- Mark the offset of a lease that was found. -/
def markLease (g : GroupState) (l : Option Lease) : GroupState :=
  l.elim g fun l => g.markAcked l.offset

theorem ackLease_eq (g : GroupState) (id : LeaseId) :
    g.ackLease id = (g.removeLease id).markLease (g.inFlight.get? id) := by
  unfold ackLease removeLease
  cases g.inFlight.get? id <;> rfl

theorem markLease_removeLease (g : GroupState) (l : Option Lease) (id : LeaseId) :
    (g.markLease l).removeLease id = (g.removeLease id).markLease l := by
  cases l with
  | none => rfl
  | some l => exact markAcked_removeLease ..

@[simp] theorem markLease_inFlight (g : GroupState) (l : Option Lease) :
    (g.markLease l).inFlight = g.inFlight := by
  cases l with
  | none => rfl
  | some l => exact markAcked_inFlight ..

theorem markLease_comm {g : GroupState} (h : g.Normal) (l l' : Option Lease) :
    (g.markLease l).markLease l' = (g.markLease l').markLease l := by
  cases l <;> cases l'
  all_goals first | rfl | exact markAcked_comm h ..

theorem removeLease_inFlight_ne (g : GroupState) {i j : LeaseId} (h : j ≠ i) :
    (g.removeLease i).inFlight.get? j = g.inFlight.get? j := by
  rw [removeLease_inFlight, if_neg h]

theorem ackLease_removeLease_comm (g : GroupState) {i j : LeaseId} (h : i ≠ j) :
    (g.ackLease i).removeLease j = (g.removeLease j).ackLease i := by
  rw [ackLease_eq, ackLease_eq, markLease_removeLease, removeLease_comm,
    removeLease_inFlight_ne g h]

theorem ackLease_comm {g : GroupState} (h : g.Normal) (i j : LeaseId) :
    (g.ackLease i).ackLease j = (g.ackLease j).ackLease i := by
  rcases eq_or_ne i j with rfl | hne
  · rfl
  have hboth : ∀ {i j}, i ≠ j → (g.ackLease i).ackLease j =
      (((g.removeLease i).removeLease j).markLease (g.inFlight.get? i)).markLease
        (g.inFlight.get? j) := fun {i j} hne => by
    rw [ackLease_eq _ j, ackLease_eq g i, markLease_removeLease, markLease_inFlight,
      removeLease_inFlight_ne g hne.symm]
  rw [hboth hne, hboth hne.symm, removeLease_comm g j i]
  exact markLease_comm ((h.removeLease i).removeLease j) ..

end GroupState

/-! ## Reclaiming -/

/-- There are groups, and all of them are past the offset. -/
def TopicState.Passed (t : TopicState) (o : Offset) : Prop :=
  (∃ γ g, t.groups.get? γ = some g) ∧ ∀ γ g, t.groups.get? γ = some g → o < g.ackWatermark

theorem lowest_passed {t : TopicState} {boundary : Offset}
    (h : (t.groups.values.map (·.ackWatermark)).min? = some boundary) {o : Offset} :
    t.Passed o ↔ o < boundary := by
  obtain ⟨hmem, hle⟩ := List.min?_eq_some_iff.mp h
  obtain ⟨g, hg, rfl⟩ := List.mem_map.mp hmem
  obtain ⟨γ, hγ⟩ := OrdMap.mem_values.mp hg
  constructor
  · exact fun hpassed => hpassed.2 γ g hγ
  · intro hlt
    refine ⟨⟨γ, g, hγ⟩, fun γ' g' hγ' => hlt.trans_le (hle _ ?_)⟩
    exact List.mem_map.mpr ⟨g', OrdMap.mem_values.mpr ⟨γ', hγ'⟩, rfl⟩

/-- Reclaiming drops exactly the messages all groups are past. -/
theorem reclaim_get? {t : TopicState} {o : Offset} {m : Message} :
    (reclaim t).messages.get? o = some m ↔ t.messages.get? o = some m ∧ ¬t.Passed o := by
  rw [reclaim, gcIdleGroups_messages]
  unfold reclaimMessages
  split
  · rename_i hnone
    rw [List.min?_eq_none_iff, List.map_eq_nil_iff] at hnone
    refine (and_iff_left ?_).symm
    rintro ⟨⟨γ, g, hg⟩, -⟩
    have hmem := OrdMap.mem_values.mpr ⟨γ, hg⟩
    rw [hnone] at hmem
    cases hmem
  · rename_i boundary hlow
    rw [lowest_passed hlow, not_lt]
    split
    · rw [OrdMap.get?_splitOff]
      split_ifs with hle <;> simp [hle]
    · rename_i hfirst
      refine (and_iff_left_of_imp fun hm => not_lt.mp fun hlt => hfirst ?_).symm
      cases hkey : t.messages.firstKey? with
      | none => rw [OrdMap.firstKey?_eq_none.mp hkey] at hm; cases hm
      | some k => simpa using ((OrdMap.firstKey?_eq_some.mp hkey).2 o m hm).trans_lt hlt

/-- No group of the topic loses a message ahead of it to reclaiming. -/
theorem reclaim_above {t : TopicState} {γ : GroupId} {g : GroupState}
    (hg : t.groups.get? γ = some g) {o : Offset} (ho : g.ackWatermark ≤ o) :
    (reclaim t).messages.get? o = t.messages.get? o := by
  refine Option.ext fun m => ?_
  rw [reclaim_get?]
  refine and_iff_left fun hpassed => ?_
  exact absurd (hpassed.2 γ g hg) (not_lt.mpr ho)

theorem reclaim_eq {t : TopicState} (h : t.groups.size ≤ groupGcThreshold) :
    reclaim t = { t with messages := (reclaim t).messages } := by
  have hmessages : reclaimMessages t = { t with messages := (reclaimMessages t).messages } := by
    unfold reclaimMessages
    split
    · rfl
    · split <;> rfl
  rw [reclaim, gcIdleGroups_of_small (by rwa [reclaimMessages_groups])]
  exact hmessages

theorem updateGroup_reclaim_eq {t : TopicState} (h : t.groups.size ≤ groupGcThreshold)
    (group : GroupId) (f : GroupState → GroupState) :
    updateGroup (reclaim t) group f =
      { updateGroup t group f with messages := (reclaim t).messages } := by
  rw [reclaim_eq h, updateGroup_eq, updateGroup_eq]

/-- Passing depends on the groups alone, and lasts if watermarks rise. -/
theorem passed_updateGroup {t : TopicState} {group : GroupId} {f : GroupState → GroupState}
    (hrise : ∀ g, t.groups.get? group = some g → g.ackWatermark ≤ (f g).ackWatermark)
    {o : Offset} (h : t.Passed o) : (updateGroup t group f).Passed o := by
  obtain ⟨⟨γ, g, hg⟩, hall⟩ := h
  refine ⟨⟨γ, if γ = group then f g else g, by rw [updateGroup_group, hg]; rfl⟩,
    fun γ' g' hg' => ?_⟩
  rw [updateGroup_group] at hg'
  obtain ⟨g₀, hg₀, rfl⟩ := Option.map_eq_some_iff.mp hg'
  split_ifs with hγ
  · exact (hall γ' g₀ hg₀).trans_le (hrise g₀ (hγ ▸ hg₀))
  · exact hall γ' g₀ hg₀

/-- Reclaiming before an update that raises watermarks is for nothing if
one reclaims after it. -/
theorem reclaim_update_reclaim {t : TopicState} (h : t.groups.size ≤ groupGcThreshold)
    {group : GroupId} {f : GroupState → GroupState}
    (hrise : ∀ g, t.groups.get? group = some g → g.ackWatermark ≤ (f g).ackWatermark) :
    reclaim (updateGroup (reclaim t) group f) = reclaim (updateGroup t group f) := by
  have hsmall : (updateGroup t group f).groups.size ≤ groupGcThreshold := by
    rwa [updateGroup_size]
  have hmessages : (reclaim (updateGroup (reclaim t) group f)).messages =
      (reclaim (updateGroup t group f)).messages := by
    refine OrdMap.ext_get? fun o => Option.ext fun m => ?_
    rw [reclaim_get?, reclaim_get?, updateGroup_messages, updateGroup_messages, reclaim_get?,
      updateGroup_reclaim_eq h]
    constructor
    · rintro ⟨⟨hm, -⟩, hnot⟩
      exact ⟨hm, hnot⟩
    · rintro ⟨hm, hnot⟩
      exact ⟨⟨hm, fun hpassed => hnot (passed_updateGroup hrise hpassed)⟩, hnot⟩
  rw [reclaim_eq (t := updateGroup (reclaim t) group f), reclaim_eq hsmall, hmessages,
    updateGroup_reclaim_eq h]
  rwa [updateGroup_reclaim_eq h]

/-- Reclaiming does not see an update that keeps the watermarks. -/
theorem update_reclaim {t : TopicState} (h : t.groups.size ≤ groupGcThreshold)
    {group : GroupId} {f : GroupState → GroupState}
    (hsame : ∀ g, (f g).ackWatermark = g.ackWatermark) :
    updateGroup (reclaim t) group f = reclaim (updateGroup t group f) := by
  have hsmall : (updateGroup t group f).groups.size ≤ groupGcThreshold := by
    rwa [updateGroup_size]
  have hpassed : ∀ o, (updateGroup t group f).Passed o → t.Passed o := by
    rintro o ⟨⟨γ, g, hg⟩, hall⟩
    simp only [updateGroup_group, Option.map_eq_some_iff] at hg hall
    obtain ⟨g₀, hg₀, -⟩ := hg
    refine ⟨⟨γ, g₀, hg₀⟩, fun γ' g' hg' => ?_⟩
    have hlt := hall γ' _ ⟨g', hg', rfl⟩
    split_ifs at hlt
    · exact hlt.trans_eq (hsame g')
    · exact hlt
  rw [updateGroup_reclaim_eq h, reclaim_eq hsmall]
  have hmessages : (reclaim t).messages = (reclaim (updateGroup t group f)).messages := by
    refine OrdMap.ext_get? fun o => Option.ext fun m => ?_
    rw [reclaim_get?, reclaim_get?, updateGroup_messages]
    refine and_congr_right fun _ => not_congr ⟨fun h => ?_, hpassed o⟩
    exact passed_updateGroup (fun g _ => (hsame g).ge) h
  rw [hmessages]

/-! ## One topic -/

/-- A well-shaped topic whose groups are normal. -/
structure TopicNormal (t : TopicState) : Prop extends TopicShape t where
  acked_gt : ∀ {γ g}, t.groups.get? γ = some g → ∀ o ∈ g.ackedAbove, g.ackWatermark < o

theorem TopicNormal.normal {t : TopicState} (h : TopicNormal t) {γ : GroupId} {g : GroupState}
    (hg : t.groups.get? γ = some g) : g.Normal :=
  ⟨(h.watermark hg).2, h.acked_gt hg⟩

theorem advanceWatermark_acked_gt (g : GroupState) (upto : Offset) :
    ∀ o ∈ (g.advanceWatermark upto).ackedAbove, (g.advanceWatermark upto).ackWatermark < o := by
  have hs := GroupState.sameButLeases_dropLeases (g.raise (max g.ackWatermark upto))
    fun l => l.offset < max g.ackWatermark upto
  rw [GroupState.advanceWatermark_eq]
  refine absorb_gt le_rfl fun o ho => ?_
  rw [hs.ackedAbove] at ho
  rw [hs.ackWatermark]
  exact (Finset.mem_filter.mp ho).2

/-- A step keeps what a group has acked above its watermark. -/
theorem TopicOp.groupRun_acked_gt {t : TopicState} (op : TopicOp) (γ : GroupId) {g : GroupState}
    (h : g.Normal) :
    ∀ o ∈ (op.groupRun t γ g).ackedAbove, (op.groupRun t γ g).ackWatermark < o := by
  have hdrop : ∀ p, ∀ o ∈ (g.dropLeases p).ackedAbove, (g.dropLeases p).ackWatermark < o := by
    intro p
    have hs := GroupState.sameButLeases_dropLeases g p
    rw [hs.ackedAbove, hs.ackWatermark]
    exact h.acked_gt
  have hstep := op.groupStep t γ g
  generalize op.groupRun t γ g = g' at hstep ⊢
  cases hstep with
  | same => exact h.acked_gt
  | purge now => exact advanceWatermark_acked_gt g _
  | sweep now =>
      rw [GroupState.stamp]
      split_ifs
      · exact h.acked_gt
      · exact h.acked_gt
  | beginPoll ts => exact hdrop _
  | lease id o d => exact h.acked_gt
  | ack id => exact (h.ackLease id).acked_gt
  | nack id => exact (h.removeLease id).acked_gt
  | commit upto now => cases now <;> exact advanceWatermark_acked_gt g upto

theorem TopicNormal.empty : TopicNormal {} where
  toTopicShape := TopicShape.empty
  acked_gt h := by cases h

theorem TopicNormal.run {t : TopicState} (h : TopicNormal t) {n : LeaseId} {op : TopicOp}
    (hpre : op.Pre t n) : TopicNormal (op.run t) where
  toTopicShape := h.toTopicShape.run hpre
  acked_gt {γ g'} hg' := by
    rcases TopicOp.group_of_run hpre hg' with ⟨g, hg, rfl⟩ | ⟨-, now, -, rfl⟩
    · exact op.groupRun_acked_gt γ (h.normal hg)
    · exact fun o ho => absurd ho (Finset.notMem_empty o)

/-- An ack or nack as a request of its own leaves its topic: only an ack
reclaims. -/
def settleTopic (t : TopicState) (group : GroupId) (leaseId : LeaseId) : Bool → TopicState
  | true => nackTopic t group leaseId
  | false => reclaim (ackTopic t group leaseId)

namespace TopicNormal

variable {t : TopicState}

theorem ackTopic (h : TopicNormal t) (γ : GroupId) (id : LeaseId) :
    TopicNormal (ackTopic t γ id) :=
  h.run (show TopicOp.Pre t 0 (.ack γ id) from trivial)

theorem reclaim_ack_reclaim (h : TopicNormal t) (γ : GroupId) (id : LeaseId) :
    HermesMq.reclaim (HermesMq.ackTopic (HermesMq.reclaim t) γ id) =
      HermesMq.reclaim (HermesMq.ackTopic t γ id) :=
  reclaim_update_reclaim h.size_le_threshold fun _ hg =>
    (GroupState.ackLease_watermark (h.normal hg).watermark_le id).1

theorem nack_reclaim (h : TopicNormal t) (γ : GroupId) (id : LeaseId) :
    HermesMq.nackTopic (HermesMq.reclaim t) γ id =
      HermesMq.reclaim (HermesMq.nackTopic t γ id) :=
  update_reclaim h.size_le_threshold fun g => g.removeLease_ackWatermark id

theorem ackTopic_comm (h : TopicNormal t) (γ δ : GroupId) (i j : LeaseId) :
    HermesMq.ackTopic (HermesMq.ackTopic t γ i) δ j =
      HermesMq.ackTopic (HermesMq.ackTopic t δ j) γ i := by
  simp only [HermesMq.ackTopic, updateGroup_eq]
  rw [OrdMap.modify_comm fun _ g hg => GroupState.ackLease_comm (h.normal hg) i j]

end TopicNormal

theorem nackTopic_comm (t : TopicState) (γ δ : GroupId) (i j : LeaseId) :
    nackTopic (nackTopic t γ i) δ j = nackTopic (nackTopic t δ j) γ i := by
  simp only [nackTopic, updateGroup_eq]
  rw [OrdMap.modify_comm fun _ g _ => GroupState.removeLease_comm g i j]

theorem ackTopic_nackTopic_comm (t : TopicState) {γ δ : GroupId} {i j : LeaseId}
    (h : γ = δ → i ≠ j) :
    nackTopic (ackTopic t γ i) δ j = ackTopic (nackTopic t δ j) γ i := by
  simp only [nackTopic, ackTopic, updateGroup_eq]
  rw [OrdMap.modify_comm fun hγ g _ => GroupState.ackLease_removeLease_comm g (h hγ)]

/-- Acks and nacks of different leases commute. -/
theorem settleTopic_comm {t : TopicState} (h : TopicNormal t) {γ δ : GroupId} {i j : LeaseId}
    {m n : Bool} (hclash : γ = δ → i = j → m = n) :
    settleTopic (settleTopic t γ i m) δ j n = settleTopic (settleTopic t δ j n) γ i m := by
  have hmixed : ∀ {γ δ i j}, (γ = δ → i ≠ j) →
      nackTopic (reclaim (ackTopic t γ i)) δ j = reclaim (ackTopic (nackTopic t δ j) γ i) :=
    fun {γ δ i j} hne => by
      rw [(h.ackTopic γ i).nack_reclaim, ackTopic_nackTopic_comm t hne]
  cases m <;> cases n
  · simp only [settleTopic, (h.ackTopic _ _).reclaim_ack_reclaim, h.ackTopic_comm γ δ i j]
  · exact hmixed fun hγ hid => by cases hclash hγ hid
  · exact (hmixed fun hγ hid => by cases hclash hγ.symm hid.symm).symm
  · exact nackTopic_comm ..

/-- Acks that reclaim one by one leave what they leave reclaiming once. -/
theorem foldl_settleTopic {t : TopicState} (h : TopicNormal t) (γ : GroupId)
    {ids : List LeaseId} (hne : ids ≠ []) :
    ids.foldl (fun t id => settleTopic t γ id false) t =
      reclaim (ids.foldl (fun t id => ackTopic t γ id) t) := by
  induction ids using List.reverseRecOn with
  | nil => exact absurd rfl hne
  | append_singleton ids id ih =>
      rw [List.foldl_concat, List.foldl_concat]
      rcases eq_or_ne ids [] with rfl | hids
      · rfl
      · have hfold : TopicNormal (ids.foldl (fun t id => ackTopic t γ id) t) :=
          List.foldlRecOn ids _ h fun _ hb i _ => hb.ackTopic γ i
        rw [ih hids, settleTopic, hfold.reclaim_ack_reclaim]

end HermesMq
