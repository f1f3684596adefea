import HermesMq.BrokerConsumers
import HermesMq.GroupLimit

/-!
# The queue is the broker

`Broker.Models` reads a queue as a broker, topic by topic. Every request is
served as the broker serves it (`apply_refines`), so the answers to any list
of requests are answers of the broker (`queue_refines_broker`), for as long
as no counter has run out.
-/

namespace HermesMq

/-- No counter has run out. -/
structure Queue.Counting (q : Queue) : Prop where
  lease : q.nextLeaseId < u64Max
  offset : ∀ {τ t}, q.topics.get? τ = some t → t.nextOffset < u64Max

theorem Queue.Counting.of_values {q : Queue} (hlease : q.nextLeaseId < u64Max)
    (hoffset : ∀ t ∈ q.topics.values, t.nextOffset < u64Max) : q.Counting :=
  ⟨hlease, fun {τ t} ht => hoffset t (OrdMap.mem_values.mpr ⟨τ, ht⟩)⟩

theorem nextOffset_lt_of_produceTopic {t : TopicState} {item : ProduceItem}
    (h : (produceTopic t item).1.nextOffset < u64Max) : t.nextOffset < u64Max := by
  unfold produceTopic at h
  simp only at h
  split at h
  · rwa [purgeRetained_nextOffset] at h
  · rw [purgeRetained_nextOffset, appendMessage_nextOffset] at h
    exact lt_max_of_satAdd h

theorem Queue.Counting.of_produceAll {items : List ProduceItem} :
    ∀ {q : Queue}, (q.produceAll items).1.Counting → q.Counting := by
  induction items with
  | nil => exact id
  | cons item rest ih =>
      intro q h
      have hone : (q.produceOne item).1.Counting := ih h
      refine ⟨hone.lease, fun {τ t} ht => ?_⟩
      by_cases hτ : τ = item.topic
      · have hlt : (produceTopic (q.topicOrDefault item.topic) item).1.nextOffset < u64Max :=
          hone.offset (OrdMap.get?_insert_self ..)
        rw [Queue.topicOrDefault, ← hτ, ht] at hlt
        exact nextOffset_lt_of_produceTopic hlt
      · exact hone.offset ((OrdMap.get?_insert_ne _ _ hτ).trans ht)

theorem Queue.updateTopic_updateTopic (q : Queue) (τ : TopicId) (f f' : TopicState → TopicState) :
    (q.updateTopic τ f).updateTopic τ f' = q.updateTopic τ fun t => f' (f t) := by
  simp only [Queue.updateTopic_eq, OrdMap.modify_modify]

/-- Acks of one group, and the reclaiming after them, are one update. -/
theorem Queue.acks_eq (q : Queue) (τ : TopicId) (γ : GroupId) (ids : List LeaseId) :
    (ids.foldl (fun q id => q.ack τ γ id) q).reclaimTopic τ =
      q.updateTopic τ fun t => reclaim (ids.foldl (ackTopic · γ) t) := by
  have hacks : ids.foldl (fun q id => q.ack τ γ id) q =
      q.updateTopic τ fun t => ids.foldl (ackTopic · γ) t :=
    Queue.foldl_updateTopic q τ (ackTopic · γ) ids
  rw [hacks, Queue.reclaimTopic, Queue.updateTopic_updateTopic]

theorem Queue.Counting.poll {q : Queue} {τ : TopicId} {γ : GroupId} {max vis ts : Nat}
    (hq : q.Counting) (hn : (q.poll τ γ max vis ts).1.nextLeaseId < u64Max) :
    (q.poll τ γ max vis ts).1.Counting := by
  cases ht : q.topics.get? τ with
  | none =>
      simp only [Queue.poll, ht]
      exact hq
  | some t =>
      simp only [Queue.poll, ht] at hn ⊢
      have hnext : (pollTopic t γ max vis ts q.nextLeaseId).1.nextOffset = t.nextOffset := by
        simp only [pollTopic]
        split <;> exact sweepAndReclaim_nextOffset t ts
      refine ⟨hn, fun {σ t'} ht' => ?_⟩
      rw [Queue.putTopic_topics] at ht'
      split_ifs at ht' with hσ
      · rw [← Option.some.inj ht', hnext]
        exact hq.offset ht
      · exact hq.offset ht'

namespace Broker

/-- The topics of the queue, one by one, are those of the broker. -/
structure Models (b : Broker) (q : Queue) : Prop where
  topics : ∀ τ, Option.Rel (TopicModels q.nextLeaseId) (b.topics.get? τ) (q.topics.get? τ)
  issued : b.issued = q.nextLeaseId

variable {b b' : Broker} {q q' : Queue} {τ : TopicId} {a : BrokerTopic} {t : TopicState}
  {n : LeaseId}

namespace Models

theorem empty : Models {} {} := ⟨fun _ => .none, rfl⟩

theorem topic_of_some (h : b.Models q) (ht : q.topics.get? τ = some t) :
    ∃ a, b.topics.get? τ = some a ∧ TopicModels q.nextLeaseId a t := by
  have hrel := h.topics τ
  rw [ht] at hrel
  cases hb : b.topics.get? τ with
  | none =>
      rw [hb] at hrel
      cases hrel
  | some a =>
      rw [hb] at hrel
      cases hrel with
      | some hmodels => exact ⟨a, rfl, hmodels⟩

theorem topic_of_none (h : b.Models q) (ht : q.topics.get? τ = none) :
    b.topics.get? τ = none := by
  have hrel := h.topics τ
  rw [ht] at hrel
  cases hb : b.topics.get? τ with
  | none => rfl
  | some a =>
      rw [hb] at hrel
      cases hrel

theorem contains_eq (h : b.Models q) (τ : TopicId) :
    b.topics.contains τ = q.topics.contains τ := by
  cases ht : q.topics.get? τ with
  | none =>
      rw [OrdMap.contains, OrdMap.contains, ht, h.topic_of_none ht]
      rfl
  | some t =>
      obtain ⟨a, ha, -⟩ := h.topic_of_some ht
      rw [OrdMap.contains, OrdMap.contains, ht, ha]
      rfl

theorem size_eq (h : b.Models q) : b.topics.size = q.topics.size := OrdMap.size_congr h.contains_eq

theorem topicOrNew (h : b.Models q) (τ : TopicId) :
    TopicModels q.nextLeaseId (b.topicOrNew τ) (q.topicOrDefault τ) := by
  rw [Broker.topicOrNew, Queue.topicOrDefault]
  cases ht : q.topics.get? τ with
  | none =>
      rw [h.topic_of_none ht]
      exact TopicModels.empty q.nextLeaseId
  | some t =>
      obtain ⟨a, ha, hmodels⟩ := h.topic_of_some ht
      rw [ha]
      exact hmodels

theorem put (h : b.Models q) (ht : TopicModels q.nextLeaseId a t) :
    (b.put τ a).Models (q.putTopic τ t) := by
  refine ⟨fun σ => ?_, h.issued⟩
  show Option.Rel _ ((b.topics.insert τ a).get? σ) ((q.topics.insert τ t).get? σ)
  rw [OrdMap.get?_insert, OrdMap.get?_insert]
  split_ifs
  · exact .some ht
  · exact h.topics σ

theorem erase (h : b.Models q) :
    Models { b with topics := b.topics.erase τ } { q with topics := q.topics.erase τ } := by
  refine ⟨fun σ => ?_, h.issued⟩
  simp only [OrdMap.get?_erase]
  split_ifs
  · exact .none
  · exact h.topics σ

/-- Leases are handed out. -/
theorem issue (h : b.Models q) (hn : q.nextLeaseId ≤ n) :
    Models { b with issued := n } { q with nextLeaseId := n } := by
  refine ⟨fun σ => ?_, rfl⟩
  have hrel := h.topics σ
  cases hb : b.topics.get? σ <;> cases hq : q.topics.get? σ <;> rw [hb, hq] at hrel
  · exact .none
  · cases hrel
  · cases hrel
  · cases hrel with
    | some hmodels => exact .some (hmodels.mono hn)

/-- A change of one topic that the queue has. -/
theorem update (h : b.Models q) {R : BrokerTopic → BrokerTopic → Prop}
    {f : TopicState → TopicState}
    (hR : ∀ {a t}, q.topics.get? τ = some t → TopicModels q.nextLeaseId a t →
      ∃ a', R a a' ∧ TopicModels q.nextLeaseId a' (f t)) :
    ∃ b', b.At τ R b' ∧ b'.Models (q.updateTopic τ f) := by
  cases ht : q.topics.get? τ with
  | none =>
      rw [Queue.updateTopic_of_none ht]
      exact ⟨b, .inl ⟨h.topic_of_none ht, rfl⟩, h⟩
  | some t =>
      obtain ⟨a, ha, hmodels⟩ := h.topic_of_some ht
      obtain ⟨a', hchange, hmodels'⟩ := hR ht hmodels
      rw [Queue.updateTopic_of_some ht]
      exact ⟨_, .inr ⟨a, a', ha, hchange, rfl⟩, h.put hmodels'⟩

/-! ### Requests -/

theorem produceAll {items : List ProduceItem} (h : b.Models q)
    (hq : (q.produceAll items).1.Counting) :
    ∃ b', b.Takes items (q.produceAll items).2 b' ∧ b'.Models (q.produceAll items).1 := by
  induction items generalizing b q with
  | nil => exact ⟨b, .nil b, h⟩
  | cons item rest ih =>
      have hrest : ((q.produceOne item).1.produceAll rest).1.Counting := hq
      have hone := hrest.of_produceAll
      have hnext : (produceTopic (q.topicOrDefault item.topic) item).1.nextOffset < u64Max :=
        hone.offset (OrdMap.get?_insert_self ..)
      obtain ⟨a, hproduces, hmodels⟩ := (h.topicOrNew item.topic).produce hone.lease
        (nextOffset_lt_of_produceTopic hnext) hnext
      obtain ⟨b', htakes, hmodels'⟩ := ih (h.put hmodels) hrest
      exact ⟨b', .cons hproduces htakes, hmodels'⟩

theorem poll {γ : GroupId} {max vis ts : Nat} (h : b.Models q) (hq : q.Counting)
    (hn : (q.poll τ γ max vis ts).1.nextLeaseId < u64Max) :
    ∃ b', b.Hands τ γ max vis ts (q.poll τ γ max vis ts).2 b' ∧
      b'.Models (q.poll τ γ max vis ts).1 := by
  cases ht : q.topics.get? τ with
  | none =>
      simp only [Queue.poll, ht]
      exact ⟨b, ⟨fun _ => rfl, b, .inl ⟨h.topic_of_none ht, rfl⟩, rfl⟩, h⟩
  | some t =>
      simp only [Queue.poll, ht] at hn ⊢
      obtain ⟨a, ha, hmodels⟩ := h.topic_of_some ht
      obtain ⟨hcounter, a', hpolls, hmodels'⟩ := hmodels.poll hq.lease (hq.offset ht) hn
      have hle : q.nextLeaseId ≤ (pollTopic t γ max vis ts q.nextLeaseId).2.1 :=
        hcounter ▸ Nat.le_add_right ..
      refine ⟨{ b.put τ a' with issued := (pollTopic t γ max vis ts q.nextLeaseId).2.1 },
        ⟨?_, b.put τ a', .inr ⟨a, a', ha, h.issued.symm ▸ hpolls, rfl⟩, ?_⟩,
        (h.issue hle).put hmodels'⟩
      · intro hnone
        rw [ha] at hnone
        cases hnone
      · rw [h.issued, hcounter]

theorem acks (h : b.Models q) (hq : q.Counting) (τ : TopicId) (γ : GroupId)
    (ids : List LeaseId) :
    ∃ b', b.At τ (BrokerTopic.Acks γ ids) b' ∧
      b'.Models ((ids.foldl (fun q id => q.ack τ γ id) q).reclaimTopic τ) := by
  rw [Queue.acks_eq]
  exact h.update fun ht hmodels => hmodels.acks hq.lease (hq.offset ht) γ ids

theorem nacks (h : b.Models q) (τ : TopicId) (γ : GroupId) (ids : List LeaseId) :
    ∃ b', b.At τ (BrokerTopic.Nacks γ ids) b' ∧
      b'.Models (ids.foldl (fun q id => q.nack τ γ id) q) := by
  have hfold : ids.foldl (fun q id => q.nack τ γ id) q =
      q.updateTopic τ fun t => ids.foldl (nackTopic · γ) t :=
    Queue.foldl_updateTopic q τ (nackTopic · γ) ids
  rw [hfold]
  exact h.update fun _ hmodels => hmodels.nacks γ ids

theorem commit (h : b.Models q) (hq : q.Counting) (τ : TopicId) (γ : GroupId)
    (offset : Offset) (now : Option Nat) :
    ∃ b', b.At τ (BrokerTopic.Commits γ offset now) b' ∧
      b'.Models ((q.commit τ γ offset now).reclaimTopic τ) := by
  rw [Queue.commit, Queue.reclaimTopic, Queue.updateTopic_updateTopic]
  exact h.update fun ht hmodels => hmodels.commit hq.lease (hq.offset ht) γ offset now

end Models

end Broker

/-! ## Reading and admission -/

namespace Broker.Models

variable {b : Broker} {q : Queue}

theorem hasDeliverable_iff (h : b.Models q) (hq : q.Counting) (τ : TopicId) (γ : GroupId)
    (now : Nat) : q.hasDeliverable τ γ now = true ↔ b.Waits τ γ now := by
  rw [Queue.hasDeliverable, Broker.Waits]
  cases ht : q.topics.get? τ with
  | none =>
      rw [h.topic_of_none ht]
      constructor
      · intro hfalse
        cases hfalse
      · rintro ⟨a, ha, -⟩
        cases ha
  | some t =>
      obtain ⟨a, ha, hmodels⟩ := h.topic_of_some ht
      have hwaits : (∃ a', b.topics.get? τ = some a' ∧ a'.Waits γ now) ↔ a.Waits γ now := by
        rw [ha]
        simp
      rw [hwaits]
      cases hγ : t.groups.get? γ with
      | none =>
          simp only [hγ, hmodels.waits_of_none (hq.offset ht) hγ, ne_eq, decide_eq_true_eq,
            OrdMap.size_eq_zero]
      | some g =>
          simp only [hγ]
          rw [hmodels.waits_of_some (hq.offset ht) hγ, ← gate_group_closed_iff,
            Bool.not_eq_false]

theorem admits_topic (h : b.Models q) (topic : TopicId) :
    (topic.utf8ByteSize ≤ maxNameBytes ∧
      (b.topics.contains topic = true ∨ b.topics.size < maxTopics)) ↔
    q.checkTopic topic = .ok () := by
  rw [Queue.checkTopic_ok_iff, Queue.topicAdmits, Bool.or_eq_true, decide_eq_true_eq,
    h.contains_eq, h.size_eq]

theorem admits_produce (h : b.Models q) (items : List ProduceItem) :
    ((∀ item ∈ items, item.NamesOk) ∧
      b.topics.size + ((items.map (·.topic)).toFinset.filter
        fun topic => b.topics.contains topic = false).card ≤ maxTopics) ↔
    q.checkProduce items = .ok () := by
  rw [Queue.checkProduce_ok_iff, Queue.freshTopics, h.size_eq]
  simp only [h.contains_eq]

/-- A request with a check in front. -/
theorem checked {req : AppRequest} (h : b.Models q) {check : Except String Unit}
    {granted : Queue × AppResponse}
    (happly : q.apply req = match check with
      | .error reason => (q, .rejected reason)
      | .ok () => granted)
    (hadmits : b.Admits req ↔ check = .ok ())
    (hgrant : q.apply req = granted → ∃ b', b.Grants req granted.2 b' ∧ b'.Models granted.1) :
    ∃ b', b.Serves req (q.apply req).2 b' ∧ b'.Models (q.apply req).1 := by
  cases hcheck : check with
  | error reason =>
      rw [hcheck] at happly hadmits
      rw [happly]
      exact ⟨b, .inl ⟨mt hadmits.mp nofun, ⟨reason, rfl⟩, rfl⟩, h⟩
  | ok u =>
      rw [hcheck] at happly hadmits
      obtain ⟨b', hgrants, hmodels⟩ := hgrant happly
      rw [happly]
      exact ⟨b', .inr ⟨hadmits.mpr rfl, hgrants⟩, hmodels⟩

end Broker.Models

/-! ## Runs -/

theorem apply_refines {b : Broker} {q : Queue} (h : b.Models q) (hq : q.Counting)
    {req : AppRequest} (hq' : (q.apply req).1.Counting) :
    ∃ b', b.Serves req (q.apply req).2 b' ∧ b'.Models (q.apply req).1 := by
  cases req with
  | createTopic topic =>
      refine h.checked rfl (h.admits_topic topic) fun _ => ?_
      exact ⟨_, ⟨rfl, rfl⟩, h.put (h.topicOrNew topic)⟩
  | deleteTopic topic => exact ⟨_, .inr ⟨trivial, rfl, rfl⟩, h.erase⟩
  | produce topic priority contentType payload producerId seq tsMs =>
      refine h.checked rfl (h.admits_produce _) fun happly => ?_
      rw [happly] at hq'
      have hone : (q.produceAll
          [⟨topic, priority, contentType, payload, producerId, seq, tsMs⟩]).1.Counting := hq'
      obtain ⟨b', htakes, hmodels⟩ := h.produceAll hone
      exact ⟨b', ⟨_, rfl, htakes⟩, hmodels⟩
  | produceMany items =>
      refine h.checked rfl (h.admits_produce items) fun happly => ?_
      rw [happly] at hq'
      obtain ⟨b', htakes, hmodels⟩ := h.produceAll hq'
      exact ⟨b', ⟨_, rfl, htakes⟩, hmodels⟩
  | poll topic group max visibilityTimeoutMs tsMs =>
      refine h.checked rfl checkConsumer_ok_iff.symm fun happly => ?_
      rw [happly] at hq'
      obtain ⟨b', hhands, hmodels⟩ := h.poll hq hq'.lease
      exact ⟨b', ⟨_, rfl, hhands⟩, hmodels⟩
  | pollAuto topic group max visibilityTimeoutMs tsMs =>
      refine h.checked rfl checkConsumer_ok_iff.symm fun happly => ?_
      have hn : (q.poll topic group max visibilityTimeoutMs tsMs).1.nextLeaseId < u64Max := by
        have hlease := (happly ▸ hq').lease
        simp only at hlease
        rw [← List.foldl_map, Queue.acks_eq, Queue.updateTopic_nextLeaseId] at hlease
        exact hlease
      obtain ⟨b₁, hhands, hmodels⟩ := h.poll hq hn
      obtain ⟨b', hacks, hmodels'⟩ := hmodels.acks (hq.poll hn) topic group
        ((q.poll topic group max visibilityTimeoutMs tsMs).2.map (·.leaseId))
      rw [List.foldl_map] at hmodels'
      exact ⟨b', ⟨_, b₁, rfl, hhands, hacks⟩, hmodels'⟩
  | ack topic group leaseId =>
      obtain ⟨b', hacks, hmodels⟩ := h.acks hq topic group [leaseId]
      exact ⟨b', .inr ⟨trivial, rfl, hacks⟩, hmodels⟩
  | ackMany topic group leaseIds =>
      obtain ⟨b', hacks, hmodels⟩ := h.acks hq topic group leaseIds
      exact ⟨b', .inr ⟨trivial, rfl, hacks⟩, hmodels⟩
  | nack topic group leaseId =>
      obtain ⟨b', hnacks, hmodels⟩ := h.nacks topic group [leaseId]
      exact ⟨b', .inr ⟨trivial, rfl, hnacks⟩, hmodels⟩
  | nackMany topic group leaseIds =>
      obtain ⟨b', hnacks, hmodels⟩ := h.nacks topic group leaseIds
      exact ⟨b', .inr ⟨trivial, rfl, hnacks⟩, hmodels⟩
  | commitOffset topic group offset =>
      refine h.checked rfl checkConsumer_ok_iff.symm fun _ => ?_
      obtain ⟨b', hcommits, hmodels⟩ := h.commit hq topic group offset none
      exact ⟨b', ⟨rfl, hcommits⟩, hmodels⟩
  | commitOffsetAt topic group offset tsMs =>
      refine h.checked rfl checkConsumer_ok_iff.symm fun _ => ?_
      obtain ⟨b', hcommits, hmodels⟩ := h.commit hq topic group offset (some tsMs)
      exact ⟨b', ⟨rfl, hcommits⟩, hmodels⟩
  | setRateLimit topic rateMilliPerSec burst =>
      refine h.checked rfl (h.admits_topic topic) fun _ => ⟨_, ⟨rfl, rfl⟩, h.put ?_⟩
      exact (h.topicOrNew topic).configured
        (·.after topic (.setRateLimit topic rateMilliPerSec burst)) (if_pos rfl)
  | setRetention topic maxMessages maxAgeMs =>
      refine h.checked rfl (h.admits_topic topic) fun _ => ⟨_, ⟨rfl, rfl⟩, h.put ?_⟩
      exact (h.topicOrNew topic).configured
        (·.after topic (.setRetention topic maxMessages maxAgeMs)) (if_pos rfl)

namespace Queue

/-- The answers to a list of requests. -/
def answers (q : Queue) : List AppRequest → List AppResponse
  | [] => []
  | req :: rest => (q.apply req).2 :: (q.apply req).1.answers rest

end Queue

theorem runs_refine {reqs : List AppRequest} {b : Broker} {q : Queue} (h : b.Models q)
    (hcounting : ∀ k, (q.run (reqs.take k)).Counting) :
    ∃ b', b.Runs reqs (q.answers reqs) b' ∧ b'.Models (q.run reqs) := by
  induction reqs generalizing b q with
  | nil => exact ⟨b, .nil b, h⟩
  | cons req rest ih =>
      have hrest : ∀ k, ((q.apply req).1.run (rest.take k)).Counting := fun k => hcounting (k + 1)
      obtain ⟨b₁, hserves, hmodels⟩ := apply_refines h (hcounting 0) (hrest 0)
      obtain ⟨b', hruns, hmodels'⟩ := ih hmodels hrest
      exact ⟨b', .cons hserves hruns, hmodels'⟩

/-- Whatever is asked of the queue, it answers as the broker does, and it
says of a group that there is something for it if and only if there is. -/
theorem queue_refines_broker (reqs : List AppRequest)
    (hcounting : ∀ k, (({} : Queue).run (reqs.take k)).Counting) :
    ∃ b, Broker.Runs {} reqs (({} : Queue).answers reqs) b ∧
      ∀ τ γ now, (({} : Queue).run reqs).hasDeliverable τ γ now = true ↔ b.Waits τ γ now := by
  obtain ⟨b, hruns, hmodels⟩ := runs_refine Broker.Models.empty hcounting
  have hend : (({} : Queue).run reqs).Counting := by
    have hall := hcounting reqs.length
    rwa [List.take_length] at hall
  exact ⟨b, hruns, hmodels.hasDeliverable_iff hend⟩

/-- A message that is sent twice, delivered and acked. -/
def retriedProduce : List AppRequest :=
  [.produce "t" .default .raw [1] "p" 1 1, .produce "t" .default .raw [1] "p" 1 2,
    .poll "t" "g" 2 1000 3, .ack "t" "g" 0]

theorem queue_refines_broker_retried :
    ∃ b, Broker.Runs {} retriedProduce
        [.produced 0, .produced 0, .polled [⟨0, 0, .default, .raw, [1], 1⟩], .acked] b ∧
      ¬b.Waits "t" "g" 9 := by
  have hall : ∀ j < 5, (({} : Queue).run (retriedProduce.take j)).nextLeaseId < u64Max ∧
      ∀ t ∈ (({} : Queue).run (retriedProduce.take j)).topics.values, t.nextOffset < u64Max := by
    decide +kernel
  have hcounting : ∀ k, (({} : Queue).run (retriedProduce.take k)).Counting := by
    intro k
    have hfour : retriedProduce.take 4 = retriedProduce := rfl
    have hk : retriedProduce.take k = retriedProduce.take (min k 4) := by
      rw [← List.take_take, hfour]
    obtain ⟨hlease, hoffset⟩ := hall (min k 4) (Nat.lt_succ_of_le (min_le_right k 4))
    rw [hk]
    exact Queue.Counting.of_values hlease hoffset
  obtain ⟨b, hruns, hreads⟩ := queue_refines_broker retriedProduce hcounting
  refine ⟨b, hruns, ?_⟩
  rw [← hreads]
  decide +kernel

end HermesMq
