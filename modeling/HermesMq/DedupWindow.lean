import HermesMq.QueueLease
import HermesMq.TopicLog

/-!
# Idempotent produces

A topic remembers the keys of its latest keyed produces. Against the log
of the topic, the dedup queue is always a suffix of what was appended with
a key: keys are pushed at the end and only ever popped at the front, by
the capacity or by a retention pass that has gone past their message
(`KeyWindow`).

So a re-send inside the window is answered with the offset of the
original, and two messages of one key are either a full window apart or
not both retained (`dedup_window`).
-/

namespace HermesMq

/-! ## The window -/

/-- The appended messages that carry a producer id. -/
def keyedAppends (log : List TopicEvent) : List (ProduceItem × Offset) :=
  (appends log).filter fun x => x.1.producerId ≠ ""

theorem keyedAppends_append (log log' : List TopicEvent) :
    keyedAppends (log ++ log') = keyedAppends log ++ keyedAppends log' := by
  rw [keyedAppends, appends_append, List.filter_append]
  rfl

@[simp] theorem keyedAppends_purgeEvents (t : TopicState) (now : Nat) :
    keyedAppends (purgeEvents t now) = [] := by
  rw [keyedAppends, appends_purgeEvents, List.filter_nil]

/-- Some retention pass had its boundary above the offset. -/
def PurgedPast (log : List TopicEvent) (o : Offset) : Prop :=
  ∃ boundary, .purged boundary ∈ log ∧ o < boundary

theorem PurgedPast.append {log : List TopicEvent} {o : Offset} (h : PurgedPast log o)
    (log' : List TopicEvent) : PurgedPast (log ++ log') o := by
  obtain ⟨boundary, hmem, hlt⟩ := h
  exact ⟨boundary, List.mem_append_left _ hmem, hlt⟩

/-- The dedup queue and map hold the keys of `kept`, the last of the
log's keyed messages; those before were dropped for a reason. -/
structure KeyWindow (log : List TopicEvent) (order : List DedupKey)
    (dedup : OrdMap DedupKey Offset) (dropped kept : List (ProduceItem × Offset)) : Prop where
  split : keyedAppends log = dropped ++ kept
  order_eq : order = kept.map (·.1.dedupKey)
  offset : ∀ x ∈ kept, dedup.get? x.1.dedupKey = some x.2
  ok : DedupOk order dedup
  reason : ∀ pre x post, dropped = pre ++ x :: post →
    dedupCapacity ≤ (post ++ kept).length ∨ PurgedPast log x.2

/-- An element of a list with one more at the end is that one or before. -/
theorem concat_split {α : Type} {l pre post : List α} {last x : α}
    (h : l ++ [last] = pre ++ x :: post) :
    (l = pre ∧ x = last ∧ post = []) ∨ ∃ post', post = post' ++ [last] ∧ l = pre ++ x :: post' := by
  induction post using List.reverseRecOn with
  | nil =>
      obtain ⟨hinit, hlast⟩ := List.append_inj' h rfl
      exact Or.inl ⟨hinit, (List.singleton_inj.mp hlast).symm, rfl⟩
  | append_singleton post' y _ =>
      rw [← List.cons_append, ← List.append_assoc] at h
      obtain ⟨hinit, hlast⟩ := List.append_inj' h rfl
      exact Or.inr ⟨post', by rw [List.singleton_inj.mp hlast], hinit⟩

namespace KeyWindow

variable {log : List TopicEvent} {order : List DedupKey} {dedup : OrdMap DedupKey Offset}
  {dropped kept : List (ProduceItem × Offset)}

/-- A longer log with the same keyed messages. -/
theorem extend (h : KeyWindow log order dedup dropped kept) {log' : List TopicEvent}
    (hnone : keyedAppends log' = []) : KeyWindow (log ++ log') order dedup dropped kept where
  split := by rw [keyedAppends_append, hnone, List.append_nil, h.split]
  order_eq := h.order_eq
  offset := h.offset
  ok := h.ok
  reason pre x post hx := (h.reason pre x post hx).imp_right fun hp => hp.append log'

/-- The key at the front leaves the window. -/
theorem pop {key : DedupKey} (h : KeyWindow log (key :: order) dedup dropped kept)
    (hreason : ∀ x, x ∈ kept.head? → dedupCapacity ≤ order.length ∨ PurgedPast log x.2) :
    ∃ dropped' kept', KeyWindow log order (dedup.erase key) dropped' kept' := by
  cases kept with
  | nil => cases h.order_eq
  | cons x rest =>
      obtain ⟨hkey, hrest⟩ := List.cons.inj h.order_eq
      have hlen : order.length = rest.length := by rw [hrest, List.length_map]
      refine ⟨dropped ++ [x], rest, ?_, hrest, fun y hy => ?_, h.ok.pop, fun pre y post hy => ?_⟩
      · rw [h.split, List.append_assoc, List.singleton_append]
      · have hne : y.1.dedupKey ≠ key := fun heq => by
          have hmem : key ∈ order := hrest ▸ List.mem_map.mpr ⟨y, hy, heq⟩
          exact (List.nodup_cons.mp h.ok.nodup).1 hmem
        rw [OrdMap.get?_erase, if_neg hne]
        exact h.offset y (List.mem_cons_of_mem _ hy)
      · -- either an earlier drop, with its reason, or the one just made
        rcases concat_split hy with ⟨-, rfl, rfl⟩ | ⟨post', rfl, hdropped⟩
        · rw [List.nil_append, ← hlen]
          exact hreason y rfl
        · rw [List.append_assoc, List.singleton_append]
          exact h.reason pre y post' hdropped

theorem evict : ∀ {order : List DedupKey} {dedup : OrdMap DedupKey Offset}
    {dropped kept : List (ProduceItem × Offset)}, KeyWindow log order dedup dropped kept →
    ∃ dropped' kept',
      KeyWindow log (evictDedup order dedup).1 (evictDedup order dedup).2 dropped' kept' := by
  intro order
  induction order with
  | nil => exact fun h => ⟨_, _, h⟩
  | cons key rest ih =>
      intro dedup dropped kept h
      rw [evictDedup]
      split_ifs with hlong
      · obtain ⟨dropped', kept', h'⟩ := h.pop fun _ _ => Or.inl (Nat.lt_succ_iff.mp hlong)
        exact ih h'
      · exact ⟨dropped, kept, h⟩

theorem prune {boundary : Offset} (hmem : .purged boundary ∈ log) :
    ∀ {order : List DedupKey} {dedup : OrdMap DedupKey Offset}
      {dropped kept : List (ProduceItem × Offset)}, KeyWindow log order dedup dropped kept →
      ∃ dropped' kept', KeyWindow log (pruneDedupLoop boundary order dedup).1
        (pruneDedupLoop boundary order dedup).2 dropped' kept' := by
  intro order
  induction order with
  | nil => exact fun h => ⟨_, _, h⟩
  | cons key rest ih =>
      intro dedup dropped kept h
      rw [pruneDedupLoop]
      split_ifs with hbelow
      · refine (h.pop fun x hx => Or.inr ⟨boundary, hmem, ?_⟩).elim fun dropped' hk =>
          hk.elim fun kept' h' => ih h'
        cases kept with
        | nil => cases hx
        | cons y kept =>
            obtain rfl := Option.some.inj hx
            rw [(List.cons.inj h.order_eq).1, h.offset y List.mem_cons_self] at hbelow
            exact of_decide_eq_true hbelow
      · exact ⟨dropped, kept, h⟩

/-- A new key enters at the end. -/
theorem push (h : KeyWindow log order dedup dropped kept) {item : ProduceItem} {o : Offset}
    (hid : item.producerId ≠ "") (hnew : dedup.get? item.dedupKey = none) :
    KeyWindow (log ++ [.appended item o]) (order ++ [item.dedupKey])
      (dedup.insert item.dedupKey o) dropped (kept ++ [(item, o)]) where
  split := by
    rw [keyedAppends_append, h.split, List.append_assoc]
    simp [keyedAppends, hid]
  order_eq := by rw [h.order_eq, List.map_append, List.map_singleton]
  offset x hx := by
    rcases List.mem_append.mp hx with hx | hx
    · have hne : x.1.dedupKey ≠ item.dedupKey := fun heq => by
        rw [← heq, h.offset x hx] at hnew
        cases hnew
      rw [OrdMap.get?_insert_ne _ _ hne]
      exact h.offset x hx
    · obtain rfl := List.mem_singleton.mp hx
      exact OrdMap.get?_insert_self ..
  ok := h.ok.push hnew o
  reason pre x post hx := by
    rcases h.reason pre x post hx with hlong | hpurged
    · refine Or.inl (hlong.trans ?_)
      simp only [List.length_append]
      omega
    · exact Or.inr (hpurged.append _)

/-- An item of the log whose key is not in the map was dropped. -/
theorem dropped_of_absent (h : KeyWindow log order dedup dropped kept)
    {pre mid : List (ProduceItem × Offset)} {x : ProduceItem × Offset}
    (hx : keyedAppends log = pre ++ x :: mid) (habsent : dedup.get? x.1.dedupKey = none) :
    dedupCapacity ≤ mid.length ∨ PurgedPast log x.2 := by
  have hnot : x ∉ kept := fun hmem => by
    rw [h.offset x hmem] at habsent
    cases habsent
  rw [h.split] at hx
  rcases List.append_eq_append_iff.mp hx with ⟨middle, -, hkept⟩ | ⟨middle, hdropped, hmid⟩
  · exact absurd (hkept ▸ List.mem_append_right _ List.mem_cons_self) hnot
  · cases middle with
    | nil =>
        rw [List.nil_append] at hmid
        exact absurd (hmid ▸ List.mem_cons_self) hnot
    | cons y rest =>
        obtain ⟨rfl, rfl⟩ := List.cons.inj hmid
        exact h.reason pre x rest hdropped

end KeyWindow

/-! ## Every step keeps it -/

/-- What the dedup tables of a topic say about its log. -/
structure DedupLogged (log : List TopicEvent) (t : TopicState) : Prop where
  window : ∃ dropped kept, KeyWindow log t.dedupOrder t.dedup dropped kept
  order_le : t.dedupOrder.length ≤ dedupCapacity
  repeats : ∀ pre x mid y post, keyedAppends log = pre ++ x :: (mid ++ y :: post) →
    x.1.dedupKey = y.1.dedupKey → dedupCapacity ≤ mid.length ∨ PurgedPast log x.2
  purged_le : ∀ boundary, .purged boundary ∈ log → boundary ≤ t.first

theorem DedupLogged.empty : DedupLogged [] {} where
  window := ⟨[], [], rfl, rfl, fun _ hx => absurd hx List.not_mem_nil,
    (topicSound_empty 0).dedup, fun pre _ _ h => by cases pre <;> cases h⟩
  order_le := Nat.zero_le _
  repeats pre _ _ _ _ h := by cases pre <;> cases h
  purged_le _ h := absurd h List.not_mem_nil

theorem first_mono {t t' : TopicState} (h : TopicShape t) (hnext : t'.nextOffset = t.nextOffset)
    (hsub : ∀ {o m}, t'.messages.get? o = some m → t.messages.get? o = some m) :
    t.first ≤ t'.first := by
  rcases first_cases t' with ⟨m, hm⟩ | ⟨heq, -⟩
  · exact first_le_of_get (hsub hm)
  · rw [heq, hnext]
    exact h.first_le

/-- The same keyed messages, and the same tables. -/
theorem DedupLogged.keep {log : List TopicEvent} {t t' : TopicState} (h : DedupLogged log t)
    (horder : t'.dedupOrder = t.dedupOrder) (hdedup : t'.dedup = t.dedup)
    (hfirst : t.first ≤ t'.first) : DedupLogged log t' where
  window := by rw [horder, hdedup]; exact h.window
  order_le := horder ▸ h.order_le
  repeats := h.repeats
  purged_le b hb := (h.purged_le b hb).trans hfirst

theorem DedupLogged.append {log : List TopicEvent} {t : TopicState} (h : DedupLogged log t)
    (hshape : TopicShape t) {item : ProduceItem}
    (hnew : item.producerId ≠ "" → t.dedup.get? item.dedupKey = none) :
    DedupLogged (log ++ [.appended item t.nextOffset]) (appendMessage t item) := by
  obtain ⟨dropped, kept, hwindow⟩ := h.window
  have hpurged : ∀ boundary, .purged boundary ∈ log ++ [.appended item t.nextOffset] →
      boundary ≤ (appendMessage t item).first := fun boundary hb => by
    rw [appendMessage_first t item hshape]
    rcases List.mem_append.mp hb with hb | hb
    · exact h.purged_le boundary hb
    · cases List.mem_singleton.mp hb
  have hpre : TopicOp.Pre t 0 (.append item) := hnew
  have hle := (TopicOp.run_dedup hpre hwindow.ok h.order_le).2
  by_cases hid : item.producerId = ""
  · have hkeyed : keyedAppends [.appended item t.nextOffset] = [] := by
      simp [keyedAppends, hid]
    have hsame : (appendMessage t item).dedupOrder = t.dedupOrder ∧
        (appendMessage t item).dedup = t.dedup := by
      simp [appendMessage, hid]
    refine ⟨⟨dropped, kept, ?_⟩, hle, fun pre x mid y post hx hkey => ?_, hpurged⟩
    · rw [hsame.1, hsame.2]
      exact hwindow.extend hkeyed
    · rw [keyedAppends_append, hkeyed, List.append_nil] at hx
      exact (h.repeats pre x mid y post hx hkey).imp_right fun hp => hp.append _
  · have hkeyed : keyedAppends [.appended item t.nextOffset] = [(item, t.nextOffset)] := by
      simp [keyedAppends, hid]
    refine ⟨?_, hle, fun pre x mid y post hx hkey => ?_, hpurged⟩
    · simp only [appendMessage, ne_eq, hid, not_false_eq_true, if_true]
      exact (hwindow.push hid (hnew hid)).evict
    · rw [keyedAppends_append, hkeyed, ← List.cons_append, ← List.append_assoc] at hx
      rcases concat_split hx with ⟨hlog, rfl, -⟩ | ⟨post', -, hx⟩
      · refine (hwindow.dropped_of_absent hlog ?_).imp_right fun hp => hp.append _
        rw [hkey]
        exact hnew hid
      · rw [List.append_assoc, List.cons_append] at hx
        exact (h.repeats pre x mid y post' hx hkey).imp_right fun hp => hp.append _

theorem DedupLogged.purge {log : List TopicEvent} {t : TopicState} (h : DedupLogged log t)
    (hshape : TopicShape t) (now : Nat) :
    DedupLogged (log ++ purgeEvents t now) (purgeRetained t now) := by
  by_cases hset : purgeSet t now = ∅
  · rw [purgeRetained_of_empty hset, purgeEvents, if_pos hset, List.append_nil]
    exact h
  obtain ⟨dropped, kept, hwindow⟩ := h.window
  have hevents : purgeEvents t now = [.purged (purgeBoundary t now)] := by
    rw [purgeEvents, if_neg hset]
  have hmem : .purged (purgeBoundary t now) ∈ log ++ purgeEvents t now := by
    rw [hevents]
    exact List.mem_append_right _ (List.mem_singleton_self _)
  have hfirst : t.first ≤ (purgeRetained t now).first :=
    first_mono hshape (purgeRetained_nextOffset ..) fun hm => ((purgeRetained_cut t now).sub hm).1
  have hpruned := (hwindow.extend (keyedAppends_purgeEvents t now)).prune hmem
  rw [← purgeRetained_dedup hset] at hpruned
  refine ⟨hpruned, ?_, fun pre x mid y post hx hkey => ?_, fun boundary hb => ?_⟩
  · have hpre : TopicOp.Pre t 0 (.purge now) := trivial
    exact (TopicOp.run_dedup hpre hwindow.ok h.order_le).2
  · rw [keyedAppends_append, keyedAppends_purgeEvents, List.append_nil] at hx
    exact (h.repeats pre x mid y post hx hkey).imp_right fun hp => hp.append _
  · rw [hevents] at hb
    rcases List.mem_append.mp hb with hb | hb
    · exact (h.purged_le boundary hb).trans hfirst
    · cases List.mem_singleton.mp hb
      exact le_rfl

theorem dedupLogged_invariant (τ : TopicId) : LogInvariant τ DedupLogged where
  empty := DedupLogged.empty
  append hshape _ _ hnew h := h.append hshape hnew
  purge now hshape h := h.purge hshape now
  other hshape _ happend hpurge h :=
    have hsame := TopicOp.run_dedup_eq happend hpurge _
    have hsub := TopicOp.run_sub happend _
    h.keep hsame.1 hsame.2 (first_mono hshape hsub.1 hsub.2)

theorem itemsOk_invariant (τ : TopicId) :
    LogInvariant τ fun log _ => ∀ x ∈ appends log, x.1.topic = τ ∧ x.1.NamesOk where
  empty := fun _ hx => absurd hx List.not_mem_nil
  append _ htopic hnames _ h := by
    intro x hx
    rw [appends_append, appends_appended] at hx
    rcases List.mem_append.mp hx with hx | hx
    · exact h x hx
    · obtain rfl := List.mem_singleton.mp hx
      exact ⟨htopic, hnames⟩
  purge now _ h := by rwa [appends_append, appends_purgeEvents, List.append_nil]
  other _ _ _ _ h := h

/-! ## Re-sends -/

/-- The offsets of a topic that has not run out of them grow. -/
theorem LogMatches.increasing {log : List TopicEvent} {t : TopicState} (h : LogMatches log t)
    (hlen : (appends log).length ≤ u64Max + 1) : (appends log).Pairwise fun a b => a.2 < b.2 := by
  have hoffset : ∀ i (hi : i < (appends log).length), (appends log)[i].2 = i := fun i hi =>
    h.offset_eq hlen (List.getElem?_eq_getElem hi)
  rw [List.pairwise_iff_getElem]
  intro i j hi hj hij
  rwa [hoffset i hi, hoffset j hj]

/-- A keyed produce of a key in the dedup map is answered with the offset
in the map and only runs a retention pass. -/
theorem produce_duplicate {q : Queue} {t : TopicState} {item : ProduceItem} {o : Offset}
    (hcheck : q.checkProduce [item] = .ok ()) (ht : q.topics.get? item.topic = some t)
    (hid : item.producerId ≠ "") (hdup : t.dedup.get? item.dedupKey = some o) :
    q.apply item.request = (q.putTopic item.topic (purgeRetained t item.tsMs), .produced o) ∧
      appends (q.topicEvents item.topic item.request) = [] := by
  constructor
  · rw [Queue.apply_produce_ok hcheck, Queue.produceOne, Queue.topicOrDefault_of_some ht]
    simp [produceTopic, hid, hdup]
  · have hcontains : t.dedup.contains item.dedupKey = true :=
      OrdMap.contains_iff.mpr ⟨o, hdup⟩
    have hevents : q.topicEvents item.topic item.request =
        purgeEvents (produceAppended t item) item.tsMs := by
      rw [Queue.topicEvents, show item.request.items = [item] from rfl, hcheck]
      simp [Queue.produceAllEvents, Queue.topicOrDefault_of_some ht, produceEvents, hid,
        hcontains]
    rw [hevents, appends_purgeEvents]

/-- The dedup tables of a topic to which at most `2 ^ 64` messages were
appended. The queue of keys is a suffix of what was appended with a key,
at growing offsets which are those in the map, and no longer than the
capacity; what is before the suffix is a full window old or was purged.
A re-send of a key in the suffix is answered with the offset of the
original and appends nothing: the log has the same messages, the topic
its next offset and no new message. Two messages of one key, the first of
them retained, have a full window of keyed messages between them. -/
theorem dedup_window {reqs : List AppRequest} {τ : TopicId} {t : TopicState}
    (ht : (({} : Queue).run reqs).topics.get? τ = some t)
    (hcount : (appends (topicLog τ reqs)).length ≤ 2 ^ 64) :
    (∃ dropped kept, keyedAppends (topicLog τ reqs) = dropped ++ kept ∧
      t.dedupOrder = kept.map (·.1.dedupKey) ∧ (kept.map (·.2)).Pairwise (· < ·) ∧
      (∀ x ∈ kept, t.dedup.get? x.1.dedupKey = some x.2) ∧ kept.length ≤ dedupCapacity ∧
      (∀ pre x post, dropped = pre ++ x :: post →
        dedupCapacity ≤ (post ++ kept).length ∨ PurgedPast (topicLog τ reqs) x.2) ∧
      ∀ x ∈ kept, ∀ item : ProduceItem, item.topic = τ → item.dedupKey = x.1.dedupKey →
        ((({} : Queue).run reqs).apply item.request).2 = .produced x.2 ∧
          appends (topicLog τ (reqs ++ [item.request])) = appends (topicLog τ reqs) ∧
          ∃ t', (({} : Queue).run (reqs ++ [item.request])).topics.get? τ = some t' ∧
            t'.nextOffset = t.nextOffset ∧
            ∀ o m, t'.messages.get? o = some m → t.messages.get? o = some m) ∧
    ∀ pre x mid y post, keyedAppends (topicLog τ reqs) = pre ++ x :: (mid ++ y :: post) →
      x.1.dedupKey = y.1.dedupKey → ∀ m, t.messages.get? x.2 = some m →
        dedupCapacity ≤ mid.length := by
  have hlogged := (dedupLogged_invariant τ).run_topic reqs ht
  have hitems := (itemsOk_invariant τ).run_topic reqs ht
  have hgrow := ((logMatches_invariant τ).run_topic reqs ht).increasing hcount
  constructor
  · obtain ⟨dropped, kept, hwindow⟩ := hlogged.window
    have hkeyed : kept.Sublist (keyedAppends (topicLog τ reqs)) :=
      hwindow.split ▸ List.sublist_append_right ..
    have hlen : kept.length = t.dedupOrder.length := by rw [hwindow.order_eq, List.length_map]
    refine ⟨dropped, kept, hwindow.split, hwindow.order_eq, ?_, hwindow.offset,
      hlen.trans_le hlogged.order_le, hwindow.reason, fun x hx item htopic hkey => ?_⟩
    · exact List.pairwise_map.mpr (hgrow.sublist (hkeyed.trans List.filter_sublist))
    · obtain ⟨hmem, hid⟩ := List.mem_filter.mp (hkeyed.subset hx)
      obtain ⟨htopic', hname, hidlen⟩ := hitems x hmem
      obtain ⟨hproducer, -⟩ := Prod.mk.inj (toLex.injective hkey)
      subst htopic
      have hnames : item.NamesOk := ⟨htopic' ▸ hname, hproducer ▸ hidlen⟩
      have hcheck := Queue.checkProduce_existing (Queue.run_size_le (Nat.zero_le _) reqs) hnames
        (OrdMap.contains_iff.mpr ⟨t, ht⟩)
      have hid' : item.producerId ≠ "" := hproducer ▸ of_decide_eq_true hid
      obtain ⟨happly, hnone⟩ := produce_duplicate hcheck ht hid' (hkey ▸ hwindow.offset x hx)
      refine ⟨by rw [happly], ?_, purgeRetained t item.tsMs, ?_, purgeRetained_nextOffset .., ?_⟩
      · rw [topicLog_snoc, if_neg (by rintro ⟨⟩), appends_append, hnone, List.append_nil]
      · rw [Queue.run_snoc, happly]
        exact OrdMap.get?_insert_self ..
      · exact fun o m hm => ((purgeRetained_cut t item.tsMs).sub hm).1
  · intro pre x mid y post hx hkey m hm
    rcases hlogged.repeats pre x mid y post hx hkey with hlong | ⟨boundary, hb, hlt⟩
    · exact hlong
    · have hle := (hlogged.purged_le boundary hb).trans (first_le_of_get hm)
      exact absurd hlt (not_lt.mpr hle)

/-- A re-send with another payload, after a message without a key. -/
theorem dedup_window_resend :
    let item : ProduceItem := ⟨"t", 3, .text, [1], "p", 1, 5⟩
    let resend : ProduceItem := ⟨"t", 3, .text, [2], "p", 1, 9⟩
    ((({} : Queue).run [plainProduce, item.request]).apply resend.request).2 = .produced 1 := by
  intro item resend
  have hlog : keyedAppends (topicLog "t" [plainProduce, item.request]) = [(item, 1)] := by decide
  have hkeys : ((({} : Queue).run [plainProduce, item.request]).topics.get? "t").map
      (·.dedupOrder) = some [item.dedupKey] := by decide
  obtain ⟨t, ht, horder⟩ := Option.map_eq_some_iff.mp hkeys
  obtain ⟨dropped, kept, hsplit, hkept, -, -, -, -, hresend⟩ := (dedup_window ht (by decide)).1
  have hmem : (item, 1) ∈ kept := by
    cases kept with
    | nil => rw [horder] at hkept; cases hkept
    | cons x rest =>
        have hx : x ∈ keyedAppends (topicLog "t" [plainProduce, item.request]) :=
          hsplit ▸ List.mem_append_right _ List.mem_cons_self
        rw [hlog, List.mem_singleton] at hx
        exact hx ▸ List.mem_cons_self
  exact (hresend (item, 1) hmem resend rfl rfl).1

/-- Past the last offset two keyed messages get the same one. -/
theorem keyed_offsets_collide :
    ((({} : Queue).run (fillOffsets ++ [.produce "t" .default .raw [] "p" 1 1,
      .produce "t" .default .raw [] "p" 2 1])).topics.get? "t").map
        (fun t => t.dedupOrder.map fun key => (key, t.dedup.get? key)) =
      some [(toLex ("p", 1), some u64Max), (toLex ("p", 2), some u64Max)] := by
  rw [Queue.run_append, fillOffsets_run]
  decide

end HermesMq
