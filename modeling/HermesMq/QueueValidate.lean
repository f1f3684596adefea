import HermesMq.QueueHistory

/-!
# What `validate` accepts

`validate` is a list of checks over every topic and group. Here each of
its loops is read as a predicate (`GroupValid`, `TopicValid`,
`Queue.Valid`), and `validate_ok_iff` says the checks and the predicates
are the same thing. The two comparisons of the lease maps, by count and
by contents, amount to `LeasesAgree` and `LeasesBacked`.
-/

namespace HermesMq

/-! ## Checks in sequence -/

theorem bind_ok_iff {ε : Type} {a b : Except ε Unit} :
    (a >>= fun _ => b) = .ok () ↔ a = .ok () ∧ b = .ok () := by
  cases a with
  | error e => exact ⟨nofun, nofun⟩
  | ok u => exact ⟨fun h => ⟨rfl, h⟩, And.right⟩

theorem forM_ok_iff {ε α : Type} {f : α → Except ε Unit} {l : List α} :
    l.forM f = .ok () ↔ ∀ x ∈ l, f x = .ok () := by
  induction l with
  | nil => exact ⟨fun _ _ h => absurd h List.not_mem_nil, fun _ => rfl⟩
  | cons x rest ih =>
      rw [show (x :: rest).forM f = (f x >>= fun _ => rest.forM f) from rfl, bind_ok_iff, ih,
        List.forall_mem_cons]

namespace Queue

theorem refuseIf_ok_iff {bad : Prop} [Decidable bad] {reason : String} :
    refuseIf bad reason = .ok () ↔ ¬bad := by
  unfold refuseIf
  split_ifs with h
  · exact ⟨nofun, fun hn => absurd h hn⟩
  · exact ⟨fun _ => h, fun _ => rfl⟩

theorem refuseExtreme_ok_iff {extreme : Option Nat} {bad : Nat → Prop} [DecidablePred bad]
    {reason : Nat → String} :
    refuseExtreme extreme bad reason = .ok () ↔ ∀ x, extreme = some x → ¬bad x := by
  cases extreme with
  | none => exact ⟨fun _ _ => nofun, fun _ => rfl⟩
  | some x =>
      rw [refuseExtreme, refuseIf_ok_iff]
      exact ⟨fun h y hy => Option.some.inj hy ▸ h, fun h => h x rfl⟩

/-- Checking the greatest element checks them all. -/
theorem refuseHighest_ok_iff {g : GroupState} {n : Nat} {reason : Nat → String} :
    refuseExtreme (highestAcked g) (· ≥ n) reason = .ok () ↔ ∀ o ∈ g.ackedAbove, o < n := by
  rw [refuseExtreme_ok_iff]
  constructor
  · intro h o ho
    obtain ⟨x, hx⟩ := Finset.max_of_mem ho
    exact (Finset.le_max_of_eq ho hx).trans_lt (not_le.mp (h x hx))
  · intro h x hx
    exact not_le.mpr (h x (Finset.mem_of_max hx))

theorem refuseLowest_ok_iff {g : GroupState} {n : Nat} {reason : Nat → String} :
    refuseExtreme (lowestAcked g) (· < n) reason = .ok () ↔ ∀ o ∈ g.ackedAbove, n ≤ o := by
  rw [refuseExtreme_ok_iff]
  constructor
  · intro h o ho
    obtain ⟨x, hx⟩ := Finset.min_of_mem ho
    exact (not_lt.mp (h x hx)).trans (Finset.min_le_of_eq ho hx)
  · intro h x hx
    exact not_lt.mpr (h x (Finset.mem_of_min hx))

theorem refuseFirst_ok_iff {V : Type} {m : OrdMap Nat V} {n : Nat} {reason : Nat → String} :
    refuseExtreme m.firstKey? (· < n) reason = .ok () ↔
      ∀ k v, m.get? k = some v → n ≤ k := by
  rw [refuseExtreme_ok_iff]
  constructor
  · intro h k v hk
    cases hf : m.firstKey? with
    | none =>
        rw [OrdMap.firstKey?_eq_none.mp hf k] at hk
        cases hk
    | some x =>
        exact (not_lt.mp (h x hf)).trans ((OrdMap.firstKey?_eq_some.mp hf).2 k v hk)
  · intro h x hx
    obtain ⟨⟨v, hv⟩, -⟩ := OrdMap.firstKey?_eq_some.mp hx
    exact not_lt.mpr (h x v hv)

theorem refuseLast_ok_iff {V : Type} {m : OrdMap Nat V} {n : Nat} {reason : Nat → String} :
    refuseExtreme m.lastKey? (· ≥ n) reason = .ok () ↔
      ∀ k v, m.get? k = some v → k < n := by
  rw [refuseExtreme_ok_iff]
  constructor
  · intro h k v hk
    cases hl : m.lastKey? with
    | none =>
        rw [OrdMap.lastKey?_eq_none.mp hl k] at hk
        cases hk
    | some x =>
        exact ((OrdMap.lastKey?_eq_some.mp hl).2 k v hk).trans_lt (not_le.mp (h x hl))
  · intro h x hx
    obtain ⟨⟨v, hv⟩, -⟩ := OrdMap.lastKey?_eq_some.mp hx
    exact not_le.mpr (h x v hv)

end Queue

/-! ## The two lease maps -/

/-- `by_lease`: the offset map the leases in flight make. -/
def leasesByOffset (g : GroupState) : OrdMap Offset Nat :=
  .ofList (g.inFlight.values.map fun l => (l.offset, l.deadlineMs))

theorem leasesByOffset_nodup_iff {g : GroupState} :
    (leasesByOffset g).size = g.inFlight.size ↔
      ∀ id id' l l', g.inFlight.get? id = some l → g.inFlight.get? id' = some l' →
        l.offset = l'.offset → id = id' := by
  have hlen : g.inFlight.size =
      (g.inFlight.values.map fun l => (l.offset, l.deadlineMs)).length := by
    simp [OrdMap.size, OrdMap.values]
  have hnd : g.inFlight.entries.Nodup := List.Nodup.of_map _ g.inFlight.keys_nodup
  rw [leasesByOffset, hlen, OrdMap.size_ofList_eq_length_iff, OrdMap.values, List.map_map,
    List.map_map, List.nodup_map_iff_inj_on hnd]
  constructor
  · intro h id id' l l' hl hl' ho
    have := h _ (OrdMap.get?_eq_some.mp hl) _ (OrdMap.get?_eq_some.mp hl') ho
    exact congrArg Prod.fst this
  · rintro h ⟨id, l⟩ hl ⟨id', l'⟩ hl' ho
    rw [← OrdMap.get?_eq_some] at hl hl'
    obtain rfl := h id id' l l' hl hl' ho
    rw [Option.some.inj (hl.symm.trans hl')]

theorem get?_leasesByOffset {g : GroupState} (h : (leasesByOffset g).size = g.inFlight.size)
    {o : Offset} {d : Nat} :
    (leasesByOffset g).get? o = some d ↔ ∃ id, g.inFlight.get? id = some ⟨o, d⟩ := by
  have hlen : g.inFlight.size =
      (g.inFlight.values.map fun l => (l.offset, l.deadlineMs)).length := by
    simp [OrdMap.size, OrdMap.values]
  rw [leasesByOffset, hlen, OrdMap.size_ofList_eq_length_iff] at h
  rw [leasesByOffset, OrdMap.get?_ofList h, List.mem_map]
  constructor
  · rintro ⟨l, hl, heq⟩
    obtain ⟨id, hid⟩ := OrdMap.mem_values.mp hl
    simp only [Prod.mk.injEq] at heq
    obtain ⟨rfl, rfl⟩ := heq
    exact ⟨id, hid⟩
  · rintro ⟨id, hid⟩
    exact ⟨_, OrdMap.mem_values.mpr ⟨id, hid⟩, rfl⟩

/-- The two comparisons of `validate`: no two leases share an offset, and
the offset map is the one the leases make. -/
theorem leasesByOffset_iff {g : GroupState} :
    ((leasesByOffset g).size = g.inFlight.size ∧ leasesByOffset g = g.leasedOffsets) ↔
      g.LeasesAgree ∧ g.LeasesBacked := by
  constructor
  · rintro ⟨hsize, heq⟩
    have hget := fun {o d} => get?_leasesByOffset hsize (o := o) (d := d)
    rw [heq] at hget
    refine ⟨⟨fun {id l} hl => hget.mpr ⟨id, hl⟩, ?_⟩, fun o d hd => hget.mp hd⟩
    exact fun {id id' l l'} => leasesByOffset_nodup_iff.mp hsize id id' l l'
  · rintro ⟨hagree, hbacked⟩
    have hsize := leasesByOffset_nodup_iff.mpr fun id id' l l' => hagree.unique
    refine ⟨hsize, OrdMap.ext_get? fun o => Option.ext fun d => ?_⟩
    rw [get?_leasesByOffset hsize]
    exact ⟨fun ⟨id, hid⟩ => hagree.leased hid, hbacked o d⟩

/-! ## Validity -/

/-- The checks of the group loop, the counter apart. -/
structure GroupValid (nextLeaseId : LeaseId) (nextOffset : Offset) (g : GroupState) : Prop where
  watermark_le : g.ackWatermark ≤ nextOffset
  acked_lt : ∀ o ∈ g.ackedAbove, o < nextOffset
  acked_gt : ∀ o ∈ g.ackedAbove, g.ackWatermark < o
  lease_lt : ∀ {id l}, g.inFlight.get? id = some l → id < nextLeaseId ∧ l.offset < nextOffset
  agree : g.LeasesAgree
  backed : g.LeasesBacked
  leased_ge : ∀ {o d}, g.leasedOffsets.get? o = some d → g.ackWatermark ≤ o

/-- The checks of the topic loop, the counters apart. -/
structure TopicValid (nextLeaseId : LeaseId) (t : TopicState) : Prop where
  message_offset : ∀ {o m}, t.messages.get? o = some m → m.offset = o
  keys_lt : ∀ {o m}, t.messages.get? o = some m → o < t.nextOffset
  order_nodup : t.dedupOrder.Nodup
  order_iff : ∀ key, key ∈ t.dedupOrder ↔ t.dedup.contains key = true
  order_le : t.dedupOrder.length ≤ dedupCapacity
  groups : ∀ {γ g}, t.groups.get? γ = some g → GroupValid nextLeaseId t.nextOffset g

/-- No counter is above `maxCounter`. -/
structure Queue.Bounded (q : Queue) : Prop where
  lease : q.nextLeaseId ≤ maxCounter
  offset : ∀ {τ t}, q.topics.get? τ = some t → t.nextOffset ≤ maxCounter
  polls : ∀ {τ t γ g}, q.topics.get? τ = some t → t.groups.get? γ = some g →
    g.pollCount ≤ maxCounter

theorem validateGroup_ok_iff {n : LeaseId} {t : TopicState} {name : TopicId} {group : GroupId}
    {g : GroupState} : Queue.validateGroup n t name group g = .ok () ↔
      g.pollCount ≤ maxCounter ∧ GroupValid n t.nextOffset g := by
  unfold Queue.validateGroup
  rw [← leasesByOffset]
  simp only [bind_ok_iff, Queue.refuseIf_ok_iff, forM_ok_iff, Queue.refuseHighest_ok_iff,
    Queue.refuseLowest_ok_iff, Queue.refuseFirst_ok_iff, not_lt, not_le, ne_eq, not_not]
  constructor
  · rintro ⟨hpoll, hw, hmax, hleases, hsize, heq, hmem, hmin, hfirst⟩
    obtain ⟨hagree, hbacked⟩ := leasesByOffset_iff.mp ⟨hsize, heq⟩
    refine ⟨hpoll, hw, hmax, fun o ho => ?_, fun {id l} hl => ?_, hagree, hbacked, ?_⟩
    · exact lt_of_le_of_ne (hmin o ho) fun heq => hmem (heq ▸ ho)
    · exact hleases _ (OrdMap.get?_eq_some.mp hl)
    · exact fun {o d} => hfirst o d
  · rintro ⟨hpoll, h⟩
    obtain ⟨hsize, heq⟩ := leasesByOffset_iff.mpr ⟨h.agree, h.backed⟩
    refine ⟨hpoll, h.watermark_le, h.acked_lt, fun ⟨id, l⟩ hl => ?_, hsize, heq, fun hmem => ?_,
      fun o ho => (h.acked_gt o ho).le, fun o d => h.leased_ge⟩
    · exact h.lease_lt (OrdMap.get?_eq_some.mpr hl)
    · exact lt_irrefl _ (h.acked_gt _ hmem)

theorem validateTopic_ok_iff {n : LeaseId} {name : TopicId} {t : TopicState} :
    Queue.validateTopic n name t = .ok () ↔ t.nextOffset ≤ maxCounter ∧
      (∀ γ g, t.groups.get? γ = some g → g.pollCount ≤ maxCounter) ∧ TopicValid n t := by
  unfold Queue.validateTopic
  simp only [bind_ok_iff, Queue.refuseIf_ok_iff, forM_ok_iff, Queue.refuseLast_ok_iff,
    validateGroup_ok_iff, not_lt, ne_eq, not_not, Bool.not_eq_false]
  constructor
  · rintro ⟨hnext, hoff, hlast, hsize, hcap, hnodup, horder, hgroups⟩
    have hnd : t.dedupOrder.Nodup := Multiset.toFinset_card_eq_card_iff_nodup.mp hnodup
    refine ⟨hnext, fun γ g hg => (hgroups _ (OrdMap.get?_eq_some.mp hg)).1,
      fun {o m} hm => hoff _ (OrdMap.get?_eq_some.mp hm), fun {o m} => hlast o m, hnd,
      fun key => ⟨horder key, (OrdMap.size_eq_length_iff hnd horder).mp hsize key⟩,
      hsize ▸ hcap, fun {γ g} hg => (hgroups _ (OrdMap.get?_eq_some.mp hg)).2⟩
  · rintro ⟨hnext, hpolls, h⟩
    have horder : ∀ key ∈ t.dedupOrder, t.dedup.contains key = true :=
      fun key => (h.order_iff key).mp
    have hsize := (OrdMap.size_eq_length_iff h.order_nodup horder).mpr
      fun key => (h.order_iff key).mpr
    refine ⟨hnext, fun ⟨o, m⟩ hm => h.message_offset (OrdMap.get?_eq_some.mpr hm),
      fun o m => h.keys_lt, hsize, hsize ▸ h.order_le,
      List.toFinset_card_of_nodup h.order_nodup, horder, fun ⟨γ, g⟩ hg => ?_⟩
    rw [← OrdMap.get?_eq_some] at hg
    exact ⟨hpolls γ g hg, h.groups hg⟩

/-- `validate` accepts the queues whose counters are in bounds and whose
topics are valid, and no others. -/
theorem validate_ok_iff {q : Queue} :
    q.validate = .ok () ↔ q.Bounded ∧ q.TopicsAt TopicValid := by
  unfold Queue.validate
  simp only [bind_ok_iff, Queue.refuseIf_ok_iff, forM_ok_iff, validateTopic_ok_iff, not_lt]
  constructor
  · rintro ⟨hlease, htopics⟩
    have hget : ∀ {τ t}, q.topics.get? τ = some t → _ := fun {τ t} ht =>
      htopics (τ, t) (OrdMap.get?_eq_some.mp ht)
    exact ⟨⟨hlease, fun ht => (hget ht).1, fun ht hg => (hget ht).2.1 _ _ hg⟩,
      fun τ t ht => (hget ht).2.2⟩
  · rintro ⟨hbound, hvalid⟩
    refine ⟨hbound.lease, fun ⟨τ, t⟩ ht => ?_⟩
    rw [← OrdMap.get?_eq_some] at ht
    exact ⟨hbound.offset ht, fun γ g hg => hbound.polls ht hg, hvalid τ t ht⟩

end HermesMq
