import HermesMq.StateMachine

/-!
# The topic limit

Three places keep a queue from holding more than `maxTopics` topics: the
client port asks `topic_admits`, requests that create one topic go
through `check_topic`, and produces through `check_produce`, which counts
the topics a whole batch would add. Each is read here as a predicate.

A queue that a node built itself never exceeds the limit, and below it
the three agree. A queue from a snapshot can exceed it, as `validate`
does not count topics, and then `check_produce` refuses what the other
two let through (`topic_limit_agrees_iff`).
-/

namespace HermesMq

/-- The request was refused. -/
def AppResponse.Rejected (r : AppResponse) : Prop := ∃ reason, r = .rejected reason

/-! ## The checks as predicates -/

theorem checkName_ok_iff {kind name : String} :
    checkName kind name = .ok () ↔ name.utf8ByteSize ≤ maxNameBytes := by
  unfold checkName
  split_ifs with h
  · exact ⟨fun h' => (by cases h'), fun hle => absurd h (not_lt.mpr hle)⟩
  · exact ⟨fun _ => not_lt.mp h, fun _ => rfl⟩

/-- The topic's name and the producer id are within their limits. -/
def ProduceItem.NamesOk (item : ProduceItem) : Prop :=
  item.topic.utf8ByteSize ≤ maxNameBytes ∧ item.producerId.utf8ByteSize ≤ maxProducerIdBytes

namespace Queue

/-- The topics a batch would create. -/
def freshTopics (q : Queue) (items : List ProduceItem) : Finset TopicId :=
  (items.map (·.topic)).toFinset.filter fun topic => q.topics.contains topic = false

theorem freshTopics_nil (q : Queue) : q.freshTopics [] = ∅ := rfl

theorem freshTopics_cons (q : Queue) (item : ProduceItem) (rest : List ProduceItem) :
    q.freshTopics (item :: rest) =
      if q.topics.contains item.topic then q.freshTopics rest
      else insert item.topic (q.freshTopics rest) := by
  rw [freshTopics, List.map_cons, List.toFinset_cons, Finset.filter_insert]
  cases q.topics.contains item.topic <;> rfl

theorem card_freshTopics_singleton (q : Queue) (item : ProduceItem) :
    (q.freshTopics [item]).card = if q.topics.contains item.topic then 0 else 1 := by
  rw [freshTopics_cons, freshTopics_nil]
  split_ifs <;> rfl

theorem checkProduceItems_ok_iff {q : Queue} {items : List ProduceItem}
    {fresh all : Finset TopicId} :
    q.checkProduceItems items fresh = .ok all ↔
      (∀ item ∈ items, item.NamesOk) ∧ all = fresh ∪ q.freshTopics items := by
  induction items generalizing fresh with
  | nil =>
      rw [checkProduceItems, freshTopics_nil, Finset.union_empty]
      constructor
      · intro h
        cases h
        exact ⟨fun _ h => absurd h List.not_mem_nil, rfl⟩
      · rintro ⟨-, rfl⟩
        rfl
  | cons item rest ih =>
      rw [checkProduceItems, List.forall_mem_cons, ProduceItem.NamesOk]
      cases hname : checkName "topic" item.topic with
      | error e =>
          refine ⟨fun h => (by cases h), fun h => ?_⟩
          rw [checkName_ok_iff.mpr h.1.1.1] at hname
          cases hname
      | ok u =>
          have hle := checkName_ok_iff.mp hname
          simp only [bind, Except.bind]
          split_ifs with hlong hold
          · exact ⟨fun h => (by cases h), fun h => absurd hlong (not_lt.mpr h.1.1.2)⟩
          · rw [ih, freshTopics_cons, if_pos hold]
            exact and_congr_left fun _ => (and_iff_right ⟨hle, not_lt.mp hlong⟩).symm
          · rw [ih, freshTopics_cons, if_neg hold, Finset.insert_union, Finset.union_insert]
            exact and_congr_left fun _ => (and_iff_right ⟨hle, not_lt.mp hlong⟩).symm

theorem checkProduce_ok_iff {q : Queue} {items : List ProduceItem} :
    q.checkProduce items = .ok () ↔ (∀ item ∈ items, item.NamesOk) ∧
      q.topics.size + (q.freshTopics items).card ≤ maxTopics := by
  rw [checkProduce]
  cases hitems : q.checkProduceItems items ∅ with
  | error e =>
      refine ⟨fun h => (by cases h), fun h => ?_⟩
      rw [checkProduceItems_ok_iff.mpr ⟨h.1, rfl⟩] at hitems
      cases hitems
  | ok fresh =>
      obtain ⟨hnames, rfl⟩ := checkProduceItems_ok_iff.mp hitems
      rw [Finset.empty_union]
      simp only [bind, Except.bind]
      split_ifs with h
      · exact ⟨fun h' => (by cases h'), fun h' => absurd h (not_lt.mpr h'.2)⟩
      · exact ⟨fun _ => ⟨hnames, not_lt.mp h⟩, fun _ => rfl⟩

/-- Within the limit, a produce to an existing topic passes. -/
theorem checkProduce_existing {q : Queue} {item : ProduceItem} (hq : q.topics.size ≤ maxTopics)
    (hnames : item.NamesOk) (h : q.topics.contains item.topic = true) :
    q.checkProduce [item] = .ok () := by
  refine checkProduce_ok_iff.mpr ⟨List.forall_mem_singleton.mpr hnames, ?_⟩
  rwa [card_freshTopics_singleton, if_pos h]

/-- What a batch that would exceed the limit is told. -/
theorem checkProduce_over_limit {q : Queue} {items : List ProduceItem}
    (hnames : ∀ item ∈ items, item.NamesOk)
    (h : maxTopics < q.topics.size + (q.freshTopics items).card) :
    q.checkProduce items = .error s!"topic limit of {maxTopics} reached" := by
  rw [checkProduce, checkProduceItems_ok_iff.mpr ⟨hnames, rfl⟩, Finset.empty_union]
  exact if_pos h

theorem checkTopic_ok_iff {q : Queue} {topic : TopicId} :
    q.checkTopic topic = .ok () ↔
      topic.utf8ByteSize ≤ maxNameBytes ∧ q.topicAdmits topic = true := by
  rw [checkTopic]
  cases hname : checkName "topic" topic with
  | error e =>
      refine ⟨fun h => (by cases h), fun h => ?_⟩
      rw [checkName_ok_iff.mpr h.1] at hname
      cases hname
  | ok u =>
      rw [and_iff_right (checkName_ok_iff.mp hname), topicAdmits]
      simp only [bind, Except.bind]
      cases q.topics.contains topic with
      | true => simp
      | false =>
          by_cases h : maxTopics ≤ q.topics.size
          · simp [h, Nat.not_lt.mpr h]
          · simp [h, Nat.lt_of_not_le h]

end Queue

/-! ## Refused and accepted requests -/

/-- The produce of a single item. -/
def ProduceItem.request (item : ProduceItem) : AppRequest :=
  .produce item.topic item.priority item.contentType item.payload item.producerId item.seq item.tsMs

namespace Queue

theorem apply_produce_ok {q : Queue} {item : ProduceItem} (h : q.checkProduce [item] = .ok ()) :
    q.apply item.request = ((q.produceOne item).1, .produced (q.produceOne item).2) := by
  rw [ProduceItem.request, apply]
  simp only [h]

theorem apply_produce_error {q : Queue} {item : ProduceItem} {reason : String}
    (h : q.checkProduce [item] = .error reason) : q.apply item.request = (q, .rejected reason) := by
  rw [ProduceItem.request, apply]
  simp only [h]

theorem produce_rejected_iff {q : Queue} {item : ProduceItem} :
    (q.apply item.request).2.Rejected ↔ q.checkProduce [item] ≠ .ok () := by
  cases h : q.checkProduce [item] with
  | error reason =>
      rw [apply_produce_error h]
      exact iff_of_true ⟨reason, rfl⟩ fun h => (by cases h)
  | ok u =>
      rw [apply_produce_ok h]
      refine iff_of_false ?_ fun h => h rfl
      rintro ⟨reason, ⟨⟩⟩

theorem createTopic_rejected_iff {q : Queue} {topic : TopicId} :
    (q.apply (.createTopic topic)).2.Rejected ↔ q.checkTopic topic ≠ .ok () := by
  rw [apply]
  cases h : q.checkTopic topic with
  | error reason => exact iff_of_true ⟨reason, rfl⟩ fun h => (by cases h)
  | ok u =>
      refine iff_of_false ?_ fun h => h rfl
      rintro ⟨reason, ⟨⟩⟩

end Queue

/-! ## A node's own queue -/

namespace Queue

theorem putTopic_size (q : Queue) (topic : TopicId) (t : TopicState) :
    (q.putTopic topic t).topics.size =
      if q.topics.contains topic then q.topics.size else q.topics.size + 1 :=
  OrdMap.size_insert ..

@[simp] theorem updateTopic_size (q : Queue) (topic : TopicId) (f : TopicState → TopicState) :
    (q.updateTopic topic f).topics.size = q.topics.size := by
  unfold updateTopic
  split
  · rfl
  · rename_i t ht
    rw [putTopic_size, if_pos (by simp [OrdMap.contains, ht])]

@[simp] theorem poll_size (q : Queue) (topic : TopicId) (group : GroupId)
    (max visibilityTimeoutMs tsMs : Nat) :
    (q.poll topic group max visibilityTimeoutMs tsMs).1.topics.size = q.topics.size := by
  unfold poll
  split
  · rfl
  · rename_i t ht
    exact (putTopic_size ..).trans (if_pos (by simp [OrdMap.contains, ht]))

theorem foldl_size {α : Type} {f : Queue → α → Queue}
    (h : ∀ q a, (f q a).topics.size = q.topics.size) (l : List α) (q : Queue) :
    (l.foldl f q).topics.size = q.topics.size := by
  induction l generalizing q with
  | nil => rfl
  | cons a rest ih => exact (ih (f q a)).trans (h q a)

@[simp] theorem ack_size (q : Queue) (topic : TopicId) (group : GroupId) (leaseId : LeaseId) :
    (q.ack topic group leaseId).topics.size = q.topics.size := updateTopic_size ..

@[simp] theorem nack_size (q : Queue) (topic : TopicId) (group : GroupId) (leaseId : LeaseId) :
    (q.nack topic group leaseId).topics.size = q.topics.size := updateTopic_size ..

/-- Creating a topic that is admitted stays within the limit. -/
theorem putTopic_size_le {q : Queue} {topic : TopicId} (h : q.checkTopic topic = .ok ())
    (hq : q.topics.size ≤ maxTopics) (t : TopicState) :
    (q.putTopic topic t).topics.size ≤ maxTopics := by
  have hadmits := (checkTopic_ok_iff.mp h).2
  rw [putTopic_size]
  split_ifs with hold
  · exact hq
  · have hlt : q.topics.size < maxTopics := by simpa [topicAdmits, hold] using hadmits
    exact hlt

/-- Producing an item moves its topic from the fresh ones to the queue. -/
theorem produceOne_size_add_fresh (q : Queue) (item : ProduceItem) (rest : List ProduceItem) :
    (q.produceOne item).1.topics.size + ((q.produceOne item).1.freshTopics rest).card =
      q.topics.size + (q.freshTopics (item :: rest)).card := by
  have hsize : (q.produceOne item).1.topics.size =
      if q.topics.contains item.topic then q.topics.size else q.topics.size + 1 := putTopic_size ..
  have hfresh : (q.produceOne item).1.freshTopics rest =
      (q.freshTopics rest).erase item.topic := by
    ext topic
    simp only [freshTopics, Finset.mem_filter, Finset.mem_erase, OrdMap.contains_eq_false]
    rw [show (q.produceOne item).1.topics.get? topic = _ from putTopic_topics ..]
    by_cases h : topic = item.topic <;> simp [h]
  rw [hsize, hfresh, freshTopics_cons]
  split_ifs with hold
  · rw [Finset.erase_eq_of_notMem fun h => ?_]
    simp [freshTopics, hold] at h
  · rw [Finset.card_insert_eq_ite, Finset.card_erase_eq_ite]
    split_ifs with hmem
    · have := Finset.card_pos.mpr ⟨_, hmem⟩
      omega
    · omega

theorem produceAll_size (q : Queue) (items : List ProduceItem) :
    (q.produceAll items).1.topics.size = q.topics.size + (q.freshTopics items).card := by
  induction items generalizing q with
  | nil => rfl
  | cons item rest ih => rw [← produceOne_size_add_fresh, ← ih]; rfl

/-- No request takes a queue over the limit. -/
theorem apply_size_le {q : Queue} (hq : q.topics.size ≤ maxTopics) (req : AppRequest) :
    (q.apply req).1.topics.size ≤ maxTopics := by
  cases req with
  | createTopic topic | setRateLimit topic rate burst | setRetention topic cap age =>
      rw [apply]
      split
      · exact hq
      · rename_i h
        exact putTopic_size_le h hq _
  | deleteTopic topic => exact (OrdMap.size_filter_le ..).trans hq
  | produce topic priority contentType payload producerId seq tsMs =>
      rw [apply]
      dsimp only
      split
      · exact hq
      · rename_i h
        have hle := (checkProduce_ok_iff.mp h).2
        rw [← produceOne_size_add_fresh] at hle
        exact (Nat.le_add_right ..).trans hle
  | produceMany items =>
      rw [apply]
      split
      · exact hq
      · rename_i h
        rw [produceAll_size]
        exact (checkProduce_ok_iff.mp h).2
  | poll topic group max vis ts =>
      rw [apply]
      split
      · exact hq
      · exact (poll_size ..).le.trans hq
  | pollAuto topic group max vis ts =>
      rw [apply]
      split
      · exact hq
      · refine (updateTopic_size ..).le.trans ?_
        rw [foldl_size fun q _ => q.ack_size .., poll_size]
        exact hq
  | ack topic group leaseId =>
      exact ((updateTopic_size ..).trans (updateTopic_size ..)).le.trans hq
  | ackMany topic group leaseIds =>
      refine (updateTopic_size ..).le.trans ?_
      rw [foldl_size fun q _ => q.ack_size ..]
      exact hq
  | nackMany topic group leaseIds =>
      rw [apply, foldl_size fun q _ => q.nack_size ..]
      exact hq
  | nack topic group leaseId => exact (updateTopic_size ..).le.trans hq
  | commitOffset topic group offset | commitOffsetAt topic group offset tsMs =>
      rw [apply]
      split
      · exact hq
      · exact ((updateTopic_size ..).trans (updateTopic_size ..)).le.trans hq

theorem run_size_le {q : Queue} (hq : q.topics.size ≤ maxTopics) (reqs : List AppRequest) :
    (q.run reqs).topics.size ≤ maxTopics :=
  List.foldlRecOn (motive := fun q : Queue => q.topics.size ≤ maxTopics) reqs _ hq
    fun _ hb req _ => apply_size_le hb req

end Queue

/-! ## One rule in three places -/

/-- The client port, `CreateTopic` and `Produce` agree on a topic exactly
if the topic is new or the queue is within the limit. -/
theorem topic_limit_agrees_iff (q : Queue) {item : ProduceItem} (hnames : item.NamesOk) :
    ((q.topicAdmits item.topic = true ↔ ¬(q.apply (.createTopic item.topic)).2.Rejected) ∧
      (q.topicAdmits item.topic = true ↔ ¬(q.apply item.request).2.Rejected)) ↔
      (q.topics.contains item.topic = true → q.topics.size ≤ maxTopics) := by
  have hcreate : ¬(q.apply (.createTopic item.topic)).2.Rejected ↔
      q.topicAdmits item.topic = true := by
    rw [Queue.createTopic_rejected_iff, not_not, Queue.checkTopic_ok_iff, and_iff_right hnames.1]
  have hproduce : ¬(q.apply item.request).2.Rejected ↔
      q.topics.size + (q.freshTopics [item]).card ≤ maxTopics := by
    rw [Queue.produce_rejected_iff, not_not, Queue.checkProduce_ok_iff, and_iff_right]
    exact List.forall_mem_singleton.mpr hnames
  rw [hcreate, hproduce, and_iff_right Iff.rfl, Queue.card_freshTopics_singleton,
    Queue.topicAdmits]
  cases q.topics.contains item.topic with
  | true => simp
  | false =>
      simp only [Bool.false_or, decide_eq_true_eq, Bool.false_eq_true, if_false,
        IsEmpty.forall_iff, iff_true]
      exact Nat.lt_iff_add_one_le

/-- An existing topic of a queue within the limit. -/
theorem topic_limit_agrees_existing :
    let q := ({} : Queue).run [.createTopic "t"]
    (q.topicAdmits "t" = true ↔ ¬(q.apply (.createTopic "t")).2.Rejected) ∧
      (q.topicAdmits "t" = true ↔
        ¬(q.apply (.produce "t" .default .raw [1] "p" 0 0)).2.Rejected) := by
  intro q
  have hnames : (⟨"t", .default, .raw, [1], "p", 0, 0⟩ : ProduceItem).NamesOk :=
    ⟨by decide, by decide⟩
  exact (topic_limit_agrees_iff q hnames).mpr fun _ => by decide

/-! ## Many names -/

/-- Short names, all different. -/
def shortName (i : Nat) : String := String.singleton (Char.ofNat i)

theorem shortName_size (i : Nat) : (shortName i).utf8ByteSize ≤ maxNameBytes := by
  have h : (shortName i).utf8ByteSize ≤ 4 := by
    simpa [shortName] using Char.utf8Size_le_four (Char.ofNat i)
  exact h.trans (by decide)

/-- A name of `n` bytes. -/
def longName (n : Nat) : String := String.ofList (List.replicate n 'a')

theorem longName_size (n : Nat) : (longName n).utf8ByteSize = n := by
  induction n with
  | zero => rfl
  | succ n ih =>
      rw [longName, List.replicate_succ, String.ofList_cons, String.utf8ByteSize_append,
        String.utf8ByteSize_singleton]
      exact (congrArg (1 + ·) ih).trans (Nat.add_comm 1 n)

theorem shortName_inj {i j : Nat} (hi : i < 0xd800) (hj : j < 0xd800)
    (h : shortName i = shortName j) : i = j := by
  have hchar : Char.ofNat i = Char.ofNat j := by
    simpa [shortName] using congrArg String.toList h
  have hnat : ∀ {n : Nat}, n < 0xd800 → (Char.ofNat n).toNat = n := fun {n} hn => by
    rw [Char.ofNat, dif_pos (Or.inl hn : n.isValidChar)]
    rfl
  rw [← hnat hi, hchar, hnat hj]

theorem shortName_nodup {n : Nat} (h : n ≤ 0xd800) : ((List.range n).map shortName).Nodup := by
  refine (List.nodup_map_iff_inj_on List.nodup_range).mpr fun i hi j hj hij => ?_
  rw [List.mem_range] at hi hj
  exact shortName_inj (hi.trans_le h) (hj.trans_le h) hij

/-- A queue with one topic more than the limit allows, as a release
without the limit could have built it. -/
def overLimit : Queue :=
  { topics := .ofList ((List.range (maxTopics + 1)).map fun i => (shortName i, {})) }

theorem overLimit_nodup : (((List.range (maxTopics + 1)).map fun i =>
    (shortName i, ({} : TopicState))).map Prod.fst).Nodup := by
  rw [List.map_map]
  exact shortName_nodup (by decide)

theorem overLimit_get? {τ : TopicId} {t : TopicState} :
    overLimit.topics.get? τ = some t ↔ t = {} ∧ ∃ i < maxTopics + 1, τ = shortName i := by
  rw [overLimit, OrdMap.get?_ofList overLimit_nodup]
  simp only [List.mem_map, List.mem_range, Prod.mk.injEq]
  constructor
  · rintro ⟨i, hi, rfl, rfl⟩
    exact ⟨rfl, i, hi, rfl⟩
  · rintro ⟨rfl, i, hi, rfl⟩
    exact ⟨i, hi, rfl, rfl⟩

theorem overLimit_size : overLimit.topics.size = maxTopics + 1 := by
  rw [overLimit, OrdMap.size_ofList_eq_length_iff.mpr overLimit_nodup, List.length_map,
    List.length_range]

theorem overLimit_valid : overLimit.validate = .ok () := by
  have htopic : ∀ {τ t}, overLimit.topics.get? τ = some t → t = {} := fun h =>
    (overLimit_get?.mp h).1
  refine validate_ok_iff.mpr ⟨⟨Nat.zero_le _, fun ht => ?_, fun ht hg => ?_⟩, fun τ t ht => ?_⟩
  · rw [htopic ht]
    exact Nat.zero_le _
  · rw [htopic ht] at hg
    cases hg
  · rw [htopic ht]
    exact (topicSound_empty _).valid

/-- The decoder accepts the queue. Its first topic exists, the client port
lets a produce to it through and `CreateTopic` is not refused, but the
produce is. -/
theorem existing_topic_refused :
    ∃ (postcard : Codec StateMachineData) (decV0 : Bytes → Except String StateMachineDataV0)
      (bytes : Bytes), decodeState postcard decV0 bytes = .ok { queue := overLimit } ∧
      overLimit.topics.contains (shortName 0) = true ∧
      overLimit.topicAdmits (shortName 0) = true ∧
      ¬(overLimit.apply (.createTopic (shortName 0))).2.Rejected ∧
      (overLimit.apply (.produce (shortName 0) .default .raw [1] "p" 0 0)).2 =
        .rejected s!"topic limit of {maxTopics} reached" := by
  have hold : overLimit.topics.contains (shortName 0) = true :=
    OrdMap.contains_iff.mpr ⟨{}, overLimit_get?.mpr ⟨rfl, 0, Nat.succ_pos _, rfl⟩⟩
  have hadmits : overLimit.topicAdmits (shortName 0) = true := by
    rw [Queue.topicAdmits, hold]
    rfl
  refine ⟨.ofCountable _, fun _ => .error "old layout", _,
    decodeState_encodeState _ _ overLimit_valid, hold, hadmits, ?_, ?_⟩
  · rw [Queue.createTopic_rejected_iff, not_not, Queue.checkTopic_ok_iff]
    exact ⟨shortName_size 0, hadmits⟩
  · have hcheck : overLimit.checkProduce [⟨shortName 0, .default, .raw, [1], "p", 0, 0⟩] =
        .error s!"topic limit of {maxTopics} reached" := by
      refine Queue.checkProduce_over_limit ?_ ?_
      · exact List.forall_mem_singleton.mpr ⟨shortName_size 0, by decide⟩
      · rw [overLimit_size]
        omega
    exact congrArg Prod.snd (Queue.apply_produce_error hcheck)

end HermesMq
