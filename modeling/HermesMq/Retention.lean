import HermesMq.DeliveryGate
import HermesMq.DedupWindow

/-!
# Retention

`purge_retained` collects a set of offsets in two passes, by age and by
count, and then moves the groups and the dedup table past them. The set is
always a leading part of the log (`purgeSet_eq`), so a purge is
`entries.drop k`, and everything else follows from the boundary `b` it
leaves: the groups take the offsets below `b` as done, their leases below
`b` go, and so do the dedup keys. The prune of the dedup table stops at the
first key in range, which is exact because keys stand in offset order.

The age pass stops at the first young message. Nothing makes timestamps
follow offsets, so a message from a fast clock shields the old ones behind
it (`shielded_by_fast_clock`).
-/

namespace HermesMq

/-! ## Messages -/

theorem purgeCount_le (t : TopicState) (now : Nat) : purgeCount t now ≤ t.messages.size := by
  refine max_le (agedCount_le t now) ?_
  split_ifs
  · exact Nat.sub_le ..
  · exact Nat.zero_le _

theorem purgeSet_eq_empty {t : TopicState} {now : Nat} :
    purgeSet t now = ∅ ↔ purgeCount t now = 0 := by
  have hle := purgeCount_le t now
  rw [purgeSet_eq, List.toFinset_eq_empty_iff, ← List.length_eq_zero_iff, List.length_take,
    OrdMap.length_keys, min_eq_left hle]

/-- A purge drops the lowest messages. -/
theorem purgeRetained_entries (t : TopicState) (now : Nat) :
    (purgeRetained t now).messages.entries = t.messages.entries.drop (purgeCount t now) := by
  rw [purgeRetained_messages, purgeSet_eq, ← OrdMap.entries_filter_take]
  simp only [List.mem_toFinset]

theorem purgeRetained_retain (t : TopicState) (now : Nat) :
    (purgeRetained t now).retainMaxMessages = t.retainMaxMessages ∧
      (purgeRetained t now).retainMaxAgeMs = t.retainMaxAgeMs := by
  by_cases h : purgeSet t now = ∅
  · rw [purgeRetained_of_empty h]
    exact ⟨rfl, rfl⟩
  · simp only [purgeRetained, if_neg h]
    exact ⟨rfl, rfl⟩

@[simp] theorem purgeRetained_effectiveRetention (t : TopicState) (now : Nat) :
    effectiveRetention (purgeRetained t now) = effectiveRetention t := by
  obtain ⟨hcap, hage⟩ := purgeRetained_retain t now
  rw [effectiveRetention, effectiveRetention, hcap, hage]

/-- A purge brings the topic under its cap. -/
theorem purgeRetained_size_le (t : TopicState) (now : Nat) (hcap : 0 < (effectiveRetention t).1) :
    (purgeRetained t now).messages.size ≤ (effectiveRetention t).1 := by
  rw [OrdMap.size, purgeRetained_entries, List.length_drop, purgeCount, if_pos hcap, OrdMap.size]
  omega

/-! ## The dedup table -/

/-- Older keys have lower offsets. -/
def DedupSorted (order : List DedupKey) (dedup : OrdMap DedupKey Offset) : Prop :=
  order.Pairwise fun k k' => ∀ o o', dedup.get? k = some o → dedup.get? k' = some o' → o ≤ o'

/-- With all keys in range nothing is dropped. -/
theorem dedup_in_range {b : Offset} {order : List DedupKey} {dedup : OrdMap DedupKey Offset}
    (hok : DedupOk order dedup) (hrange : ∀ k v, dedup.get? k = some v → b ≤ v) :
    (order, dedup) =
      (order.filter fun key => (dedup.get? key).any (b ≤ ·), dedup.filter fun _ o => b ≤ o) := by
  refine Prod.ext ?_ (OrdMap.ext_get? fun k => ?_)
  · refine Eq.symm (List.filter_eq_self (p := fun key => (dedup.get? key).any (b ≤ ·)) |>.mpr
      fun k hk => ?_)
    obtain ⟨v, hv⟩ := OrdMap.contains_iff.mp ((hok.mem_iff k).mp hk)
    simpa [hv] using hrange k v hv
  · rw [OrdMap.get?_filter]
    cases hv : dedup.get? k with
    | none => rfl
    | some v => simp [Option.filter_some, hrange k v hv]

/-- On a sorted table the prune, which stops at the first key in range,
drops every key below the boundary. -/
theorem pruneDedupLoop_eq (b : Offset) {order : List DedupKey} {dedup : OrdMap DedupKey Offset}
    (hok : DedupOk order dedup) (hsorted : DedupSorted order dedup) :
    pruneDedupLoop b order dedup =
      (order.filter fun key => (dedup.get? key).any (b ≤ ·), dedup.filter fun _ o => b ≤ o) := by
  induction order generalizing dedup with
  | nil =>
      refine dedup_in_range hok fun k v hv => ?_
      cases (hok.mem_iff k).mpr (OrdMap.contains_iff.mpr ⟨v, hv⟩)
  | cons key rest ih =>
      obtain ⟨hfirst, hrest⟩ := List.pairwise_cons.mp hsorted
      obtain ⟨hnot, -⟩ := List.nodup_cons.mp hok.nodup
      obtain ⟨o, ho⟩ := OrdMap.contains_iff.mp ((hok.mem_iff key).mp List.mem_cons_self)
      have hne : ∀ k ∈ rest, k ≠ key := fun k hk heq => hnot (heq ▸ hk)
      rw [pruneDedupLoop, ho, Option.all_some]
      by_cases hlow : o < b
      · have hsorted' : DedupSorted rest (dedup.erase key) :=
          hrest.imp_of_mem fun {k k'} hk hk' h => by
            simpa [hne k hk, hne k' hk'] using h
        rw [if_pos (decide_eq_true hlow), ih hok.pop hsorted']
        refine Prod.ext ?_ (OrdMap.ext_get? fun k => ?_)
        · rw [List.filter_cons_of_neg (by simpa [ho] using hlow)]
          refine List.filter_congr fun k hk => ?_
          rw [OrdMap.get?_erase, if_neg (hne k hk)]
        · rw [OrdMap.get?_filter, OrdMap.get?_filter, OrdMap.get?_erase]
          split_ifs with hk
          · simp [hk, ho, Option.filter_some, not_le.mpr hlow]
          · rfl
      · -- the first key is in range, and so are all behind it
        rw [if_neg (by simpa using hlow)]
        refine dedup_in_range hok fun k v hv => ?_
        rcases List.mem_cons.mp ((hok.mem_iff k).mpr (OrdMap.contains_iff.mpr ⟨v, hv⟩)) with
          rfl | hk
        · exact Option.some.inj (ho.symm.trans hv) ▸ not_lt.mp hlow
        · exact (not_lt.mp hlow).trans (hfirst k hk o v ho hv)

theorem LogMatches.nondecreasing {log : List TopicEvent} {t : TopicState} (h : LogMatches log t) :
    (appends log).Pairwise fun a b => a.2 ≤ b.2 := by
  rw [List.pairwise_iff_getElem]
  intro i j hi hj hij
  have hoffset : ∀ k (hk : k < (appends log).length), (appends log)[k].2 = min k u64Max :=
    fun k hk => h.offset (List.getElem?_eq_getElem hk)
  rw [hoffset i hi, hoffset j hj]
  exact min_le_min_right _ hij.le

/-- In a reachable topic the dedup table is in offset order. -/
theorem run_dedupSorted {reqs : List AppRequest} {τ : TopicId} {t : TopicState}
    (ht : (({} : Queue).run reqs).topics.get? τ = some t) :
    DedupOk t.dedupOrder t.dedup ∧ DedupSorted t.dedupOrder t.dedup := by
  obtain ⟨dropped, kept, hwindow⟩ := ((dedupLogged_invariant τ).run_topic reqs ht).window
  have hkeyed : kept.Sublist (keyedAppends (topicLog τ reqs)) :=
    hwindow.split ▸ List.sublist_append_right ..
  have hgrow := ((logMatches_invariant τ).run_topic reqs ht).nondecreasing.sublist
    (hkeyed.trans List.filter_sublist)
  refine ⟨hwindow.ok, ?_⟩
  rw [DedupSorted, hwindow.order_eq, List.pairwise_map]
  refine hgrow.imp_of_mem fun {x y} hx hy hle o o' ho ho' => ?_
  rw [hwindow.offset x hx] at ho
  rw [hwindow.offset y hy] at ho'
  exact Option.some.inj ho ▸ Option.some.inj ho' ▸ hle

/-! ## Groups -/

/-- A group and what a purge up to `b` makes of it, with the lease counter
at `n`. -/
structure GroupPurged (n : LeaseId) (b : Offset) (g g' : GroupState) : Prop where
  done : ∀ o < u64Max, (g'.Done o ↔ g.Done o ∨ o < b)
  inFlight : ∀ id, g'.inFlight.get? id = (g.inFlight.get? id).filter fun l => b ≤ l.offset
  leasedOffsets : n < u64Max → ∀ o,
    g'.leasedOffsets.get? o = (g.leasedOffsets.get? o).filter fun _ => b ≤ o

/-- A group at or past the boundary has nothing below it. -/
theorem GroupPurged.same {n : LeaseId} {b : Offset} {g : GroupState} (hahead : g.LeasesAhead)
    (hbacked : n < u64Max → g.LeasesBacked) (hb : b ≤ g.ackWatermark) : GroupPurged n b g g where
  done o _ := ⟨Or.inl, fun h => h.elim id fun hlt => Or.inl (hlt.trans_le hb)⟩
  inFlight id := by
    cases hl : g.inFlight.get? id with
    | none => rfl
    | some l => simp [Option.filter_some, hb.trans (hahead id l hl).1]
  leasedOffsets hn o := by
    cases hd : g.leasedOffsets.get? o with
    | none => rfl
    | some d =>
        obtain ⟨id, hid⟩ := hbacked hn o d hd
        simp [Option.filter_some, hb.trans (hahead id _ hid).1]

theorem GroupPurged.advance {n : LeaseId} {b : Offset} {g : GroupState} (hagree : g.LeasesAgree)
    (hbacked : n < u64Max → g.LeasesBacked) (hw : g.ackWatermark ≤ u64Max) (hmax : b ≤ u64Max)
    (hb : g.ackWatermark < b) : GroupPurged n b g (g.advanceWatermark b) := by
  have hrise : max g.ackWatermark b = b := max_eq_right hb.le
  refine ⟨fun o ho => GroupState.advanceWatermark_done hw hmax ho, fun id => ?_, fun hn o => ?_⟩
  · rw [GroupState.advanceWatermark_inFlight, hrise]
  · rw [hagree.advanceWatermark_leasedOffsets (hbacked hn), hrise]

/-! ## A whole purge -/

/-- A topic and what a purge of its `k` lowest messages makes of it, with
`b` the lowest offset left. -/
structure Purged (n : LeaseId) (k : Nat) (b : Offset) (t t' : TopicState) : Prop where
  entries : t'.messages.entries = t.messages.entries.drop k
  boundary : b = t'.messages.firstKey?.getD t'.nextOffset
  groups : ∀ γ, Option.Rel (GroupPurged n b) (t.groups.get? γ) (t'.groups.get? γ)
  dedup : ∀ key, t'.dedup.get? key = (t.dedup.get? key).filter (b ≤ ·)
  dedupOrder : t'.dedupOrder = t.dedupOrder.filter fun key => (t.dedup.get? key).any (b ≤ ·)

theorem purgeRetained_purged {reqs : List AppRequest} {τ : TopicId} {t : TopicState}
    (ht : (({} : Queue).run reqs).topics.get? τ = some t) {now : Nat}
    (hk : purgeCount t now ≠ 0) :
    Purged (({} : Queue).run reqs).nextLeaseId (purgeCount t now) (purgeBoundary t now) t
      (purgeRetained t now) := by
  have hset : purgeSet t now ≠ ∅ := fun h => hk (purgeSet_eq_empty.mp h)
  have hshape : TopicShape t := run_shape reqs τ t ht
  obtain ⟨hok, hsorted⟩ := run_dedupSorted ht
  have hprune := (purgeRetained_dedup hset).trans (pruneDedupLoop_eq _ hok hsorted)
  obtain ⟨horder, hdedup⟩ := Prod.mk.inj hprune
  refine ⟨purgeRetained_entries t now, rfl, fun γ => ?_, fun key => ?_, horder⟩
  · rw [purgeRetained_groups hset, OrdMap.get?_mapVals]
    cases hg : t.groups.get? γ with
    | none => exact .none
    | some g =>
        have hbacked : (({} : Queue).run reqs).nextLeaseId < u64Max → g.LeasesBacked := fun hn =>
          (run_numbered reqs τ t ht hn γ g hg).backed
        rw [Option.map_some]
        refine .some ?_
        by_cases hb : purgeBoundary t now > g.ackWatermark
        · rw [if_pos hb]
          exact GroupPurged.advance (hshape.leases hg) hbacked (hshape.watermark hg).2
            ((hshape.purgeBoundary_le now).trans hshape.nextOffset_le) hb
        · rw [if_neg hb]
          exact GroupPurged.same ((run_held reqs τ t ht).ahead hg) hbacked (not_lt.mp hb)
  · rw [hdedup, OrdMap.get?_filter]

/-- Every item brings its topic under the cap. -/
theorem produceAll_size_le (q : Queue) (pre : List ProduceItem) (item : ProduceItem)
    {t : TopicState} (ht : (q.produceAll (pre ++ [item])).1.topics.get? item.topic = some t)
    (hcap : 0 < (effectiveRetention t).1) : t.messages.size ≤ (effectiveRetention t).1 := by
  induction pre generalizing q with
  | nil =>
      have hput : (q.produceAll [item]).1.topics.get? item.topic =
          some (produceTopic (q.topicOrDefault item.topic) item).1 := OrdMap.get?_insert_self ..
      obtain rfl := Option.some.inj (hput.symm.trans ht)
      rw [produceTopic_fst, purgeRetained_effectiveRetention] at hcap ⊢
      exact purgeRetained_size_le _ _ hcap
  | cons x rest ih => exact ih (q.produceOne x).1 ht

/-- A purge of a reachable topic removes exactly the `k` lowest messages,
nothing at all when `k = 0`, and moves groups and dedup keys exactly past
the boundary; and every item of a produce leaves its topic under its cap,
the topics that the produce creates included. -/
theorem retention_exact (reqs : List AppRequest) :
    (∀ τ t, (({} : Queue).run reqs).topics.get? τ = some t → ∀ now,
      (purgeRetained t now).messages.entries = t.messages.entries.drop (purgeCount t now) ∧
      (purgeCount t now = 0 → purgeRetained t now = t) ∧
      (purgeCount t now ≠ 0 → Purged (({} : Queue).run reqs).nextLeaseId (purgeCount t now)
        (purgeBoundary t now) t (purgeRetained t now))) ∧
    ∀ pre item t', ((({} : Queue).run reqs).produceAll (pre ++ [item])).1.topics.get? item.topic =
      some t' → 0 < (effectiveRetention t').1 → t'.messages.size ≤ (effectiveRetention t').1 := by
  refine ⟨fun τ t ht now => ?_, fun pre item _ => produceAll_size_le _ pre item⟩
  exact ⟨purgeRetained_entries t now,
    fun hk => purgeRetained_of_empty (purgeSet_eq_empty.mpr hk), purgeRetained_purged ht⟩

/-- Two messages under a cap of two, lowered to one. -/
def overCap : List AppRequest :=
  [.setRetention "t" 2 0, plainProduce, plainProduce, .setRetention "t" 1 0]

theorem retention_exact_over_cap :
    ∃ t, (({} : Queue).run overCap).topics.get? "t" = some t ∧ purgeCount t 1 = 1 ∧
      (purgeRetained t 1).messages.entries = t.messages.entries.drop 1 := by
  obtain ⟨t, ht⟩ : ∃ t, (({} : Queue).run overCap).topics.get? "t" = some t := ⟨_, rfl⟩
  have hcount : ((({} : Queue).run overCap).topics.get? "t").map (purgeCount · 1) = some 1 := by
    decide
  rw [ht] at hcount
  have hone : purgeCount t 1 = 1 := Option.some.inj hcount
  have hdrop := ((retention_exact overCap).1 "t" t ht 1).1
  rw [hone] at hdrop
  exact ⟨t, ht, hone, hdrop⟩

/-- The last two offsets, leased by one poll, the very last one acked. -/
def lastOffsetAcked : List AppRequest :=
  [.setRetention "t" 1 0, plainProduce] ++ (List.replicate (u64Max - 1) plainProduce ++
    [.setRetention "t" 2 0, plainProduce, .poll "t" "g" 2 1000 2, .ack "t" "g" 1,
      .setRetention "t" 1 0])

/-- The purge of the message before it makes the last offset undone: the
watermark absorbs it and cannot step past it. -/
theorem last_offset_undone :
    ((({} : Queue).run lastOffsetAcked).topics.get? "t").map (fun t =>
      ((t.groups.get? "g").map fun g => decide (g.Done u64Max),
        ((purgeRetained t 2).groups.get? "g").map fun g => decide (g.Done u64Max))) =
      some (some true, some false) := by
  have hfirst : ({} : Queue).run [.setRetention "t" 1 0, plainProduce] = loneQueue 0 1 := by
    decide
  have hrun := loneQueue_run 0 (u64Max - 1) (by decide)
  rw [Nat.zero_add, Nat.zero_add, Nat.sub_add_cancel (by decide)] at hrun
  rw [lastOffsetAcked, Queue.run_append, hfirst, Queue.run_append, hrun]
  decide

/-! ## Age -/

/-- A message is in the aged prefix if it and all before it are too old. -/
theorem lt_agedCount_iff {t : TopicState} {i : Nat} (now : Nat)
    (hage : 0 < (effectiveRetention t).2) (hi : i < t.messages.entries.length) :
    i < agedCount t now ↔ ∀ j ≤ i, ∀ o m, t.messages.entries[j]? = some (o, m) →
      (effectiveRetention t).2 < now - m.tsMs := by
  rw [agedCount, if_pos hage, List.takeWhile_eq_take_findIdx_not, List.length_take,
    min_eq_left List.findIdx_le_length, List.lt_findIdx_iff]
  constructor
  · rintro ⟨_, hold⟩ j hj o m hm
    obtain ⟨hlt, heq⟩ := List.getElem?_eq_some_iff.mp hm
    simpa [heq] using hold j hj
  · intro hold
    refine ⟨hi, fun j hj => ?_⟩
    simpa using hold j hj _ _ (List.getElem?_eq_getElem (hj.trans_lt hi))

/-- A purge leaves nothing too old if and only if each message too old is
among those the cap purges, or has none but such messages before it. -/
theorem purgeRetained_young_iff {t : TopicState} (now : Nat) (hage : 0 < t.retainMaxAgeMs) :
    (∀ o m, (purgeRetained t now).messages.get? o = some m →
      ¬t.retainMaxAgeMs < now - m.tsMs) ↔
      ∀ i o m, t.messages.entries[i]? = some (o, m) → t.retainMaxAgeMs < now - m.tsMs →
        (0 < t.retainMaxMessages ∧ i < t.messages.size - t.retainMaxMessages) ∨
          ∀ j ≤ i, ∀ o' m', t.messages.entries[j]? = some (o', m') →
            t.retainMaxAgeMs < now - m'.tsMs := by
  have hret : effectiveRetention t = (t.retainMaxMessages, t.retainMaxAgeMs) :=
    if_neg fun h => absurd h.2 hage.ne'
  have hpurged : ∀ i o m, t.messages.entries[i]? = some (o, m) → (i < purgeCount t now ↔
      (0 < t.retainMaxMessages ∧ i < t.messages.size - t.retainMaxMessages) ∨
        ∀ j ≤ i, ∀ o' m', t.messages.entries[j]? = some (o', m') →
          t.retainMaxAgeMs < now - m'.tsMs) := by
    intro i o m hm
    have haged := lt_agedCount_iff now (hret ▸ hage)
      (List.getElem?_eq_some_iff.mp hm).1
    rw [hret] at haged
    rw [purgeCount, lt_max_iff, haged, hret, or_comm]
    split_ifs with hcap
    · simp [hcap]
    · simp [hcap]
  constructor
  · intro hyoung i o m hm hold
    by_contra hkept
    -- an old message past the purged ones is retained
    have hge : purgeCount t now ≤ i := not_lt.mp fun hlt => hkept ((hpurged i o m hm).mp hlt)
    refine hyoung o m (OrdMap.get?_eq_some.mpr ?_) hold
    rw [purgeRetained_entries, List.mem_iff_getElem?]
    exact ⟨i - purgeCount t now, by rw [List.getElem?_drop, Nat.add_sub_cancel' hge, hm]⟩
  · intro hall o m hm hold
    have hmem := OrdMap.get?_eq_some.mp hm
    rw [purgeRetained_entries, List.mem_iff_getElem?] at hmem
    obtain ⟨i, hi⟩ := hmem
    rw [List.getElem?_drop] at hi
    have hlt := (hpurged _ o m hi).mpr (hall _ o m hi hold)
    exact absurd hlt (not_lt.mpr (Nat.le_add_right _ i))

/-- Age retention after an accepted produce: nothing too old is left if and
only if each message too old is among those the cap purges, or has none but
such messages before it. -/
theorem age_retention_iff (reqs : List AppRequest) {item : ProduceItem}
    (hcheck : (({} : Queue).run reqs).checkProduce [item] = .ok ()) {t : TopicState}
    (ht : ((({} : Queue).run reqs).apply item.request).1.topics.get? item.topic = some t)
    (hage : 0 < t.retainMaxAgeMs) :
    let t₀ := produceAppended ((({} : Queue).run reqs).topicOrDefault item.topic) item
    let old (m : Message) : Prop := t.retainMaxAgeMs < item.tsMs - m.tsMs
    (∀ o m, t.messages.get? o = some m → ¬old m) ↔
      ∀ i o m, t₀.messages.entries[i]? = some (o, m) → old m →
        (0 < t.retainMaxMessages ∧ i < t₀.messages.size - t.retainMaxMessages) ∨
          ∀ j ≤ i, ∀ o' m', t₀.messages.entries[j]? = some (o', m') → old m' := by
  intro t₀ old
  rw [Queue.apply_produce_ok hcheck] at ht
  have hput : ((({} : Queue).run reqs).produceOne item).1.topics.get? item.topic =
      some (produceTopic ((({} : Queue).run reqs).topicOrDefault item.topic) item).1 :=
    OrdMap.get?_insert_self ..
  obtain rfl : purgeRetained t₀ item.tsMs = t := by
    rw [← produceTopic_fst]
    exact Option.some.inj (hput.symm.trans ht)
  obtain ⟨hcapEq, hageEq⟩ := purgeRetained_retain t₀ item.tsMs
  simp only [old, hcapEq, hageEq] at hage ⊢
  exact purgeRetained_young_iff item.tsMs hage

/-- A produce without a key to topic `t` at `ts`. -/
def stampedItem (ts : Nat) : ProduceItem := ⟨"t", .default, .raw, [], "", 0, ts⟩

/-- An age of 1000 and a message stamped 0. -/
def agedMessage : List AppRequest := [.setRetention "t" 0 1000, (stampedItem 0).request]

/-- The old message goes, as none stands before it. -/
theorem age_retention_iff_in_order :
    ∃ t, ((({} : Queue).run agedMessage).apply (stampedItem 5000).request).1.topics.get? "t" =
      some t ∧ ∀ o m, t.messages.get? o = some m → ¬t.retainMaxAgeMs < 5000 - m.tsMs := by
  have hcheck : (({} : Queue).run agedMessage).checkProduce [stampedItem 5000] = .ok () := rfl
  have hentries : (produceAppended ((({} : Queue).run agedMessage).topicOrDefault
      (stampedItem 5000).topic) (stampedItem 5000)).messages.entries =
        [(0, ⟨0, .default, .raw, [], 0⟩), (1, ⟨1, .default, .raw, [], 5000⟩)] := by
    decide
  refine ⟨_, rfl, (age_retention_iff agedMessage hcheck rfl (by decide)).mpr ?_⟩
  intro i o m hm hold
  rw [hentries] at hm ⊢
  match i with
  | 0 =>
      refine Or.inr fun j hj o' m' hm' => ?_
      obtain rfl := Nat.le_zero.mp hj
      obtain rfl := (Prod.mk.inj (Option.some.inj (hm.symm.trans hm'))).2
      exact hold
  | 1 =>
      obtain rfl := (Prod.mk.inj (Option.some.inj hm)).2
      exact absurd hold (by decide)
  | i + 2 => cases hm

/-- A message stamped 1000 by a fast clock, and one stamped 1 behind it:
at 100, with an age of 10, both are kept. -/
theorem shielded_by_fast_clock :
    let reqs : List AppRequest :=
      [.setRetention "t" 0 10, (stampedItem 1000).request, (stampedItem 1).request]
    (({} : Queue).run reqs).checkProduce [stampedItem 100] = .ok () ∧
      (((({} : Queue).run reqs).apply (stampedItem 100).request).1.topics.get? "t").map
        (fun t => (t.retainMaxAgeMs, (t.messages.get? 1).map fun m => 100 - m.tsMs)) =
        some (10, some 99) := by
  decide

end HermesMq
