import HermesMq.Broadcast
import HermesMq.ClientPort
import HermesMq.Machine
import HermesMq.QuietGate

/-!
# Waking the consumers that wait

A poll that finds nothing, and a subscription that has pushed what it could,
sleep until the topic's `Notify` is called, for at most 200 ms at a time.
The writers call it: a batch of produced messages and a batch of nacks, once
the state machine has applied them. The notifiers of a node are one map by
topic. It drops notifiers that nobody holds when it has grown large, and the
notifier of a topic that is deleted.

The handlers, the writers and the state machine interleave here in every
way. A handler that sleeps has been called, or will be, if its group has
something that it had not when the handler looked. That is so until the
topic is deleted, or an entry is applied that no handler of this node has
the answer to; then the sleep ends by its timer.
-/

namespace HermesMq

/-! ## The handlers and the writers -/

def notifierGcThreshold : Nat := 4096

/-- The longest a handler sleeps. -/
def maxSleepMs : Nat := 200

/-- An entry that was applied, with its response; `answered` when a handler
of this node got the response. -/
structure Applied where
  request : AppRequest
  response : AppResponse
  answered : Bool

/-- What the handler of a write does once it has the response. -/
inductive FollowUp where
  | notify (topics : List TopicId)
  /-- `notifiers.remove(&topic)`. -/
  | forget (topic : TopicId)

/-- `if !topics.contains(&topic) { topics.push(topic) }` over a batch. -/
def batchTopics (items : List ProduceItem) : List TopicId :=
  items.foldl (fun topics item =>
    if item.topic ∈ topics then topics else topics ++ [item.topic]) []

def followUp : AppRequest → AppResponse → Option FollowUp
  | .produceMany items, .producedMany _ => some (.notify (batchTopics items))
  | .nackMany topic _ _, .nacked => some (.notify [topic])
  | .deleteTopic topic, .topicDeleted => some (.forget topic)
  | _, _ => none

/-- The handlers write produces and nacks in batches only. -/
def AppRequest.fromHandler : AppRequest → Bool
  | .produce .. | .nack .. => false
  | _ => true

/-- `handle_poll` or `handle_subscribe` in one round of its loop. -/
structure Handler extends Waiter TopicId Applied where
  group : GroupId
  /-- The state that it looked at last. -/
  seen : Queue := {}
  /-- When its sleep ends. -/
  asleep : Option Nat := none

structure FrontEnd where
  queue : Queue := {}
  clock : Nat := 0
  notifiers : OrdMap TopicId Nat := ∅
  nextNotifier : Nat := 0
  handlers : OrdMap Nat Handler := ∅
  owed : List FollowUp := []

inductive FrontEvent where
  | tick (nowMs : Nat)
  /-- A handler takes the notifier of its topic. -/
  | enter (id : Nat) (topic : TopicId) (group : GroupId)
  /-- `notifier.notified()`, from where on a call is not lost. -/
  | listen (id : Nat)
  /-- It asks whether there is anything to deliver, or finds that it has no
  room for more. -/
  | look (id : Nat)
  /-- The poll that it wrote is applied, and answered. -/
  | polled (id : Nat) (auto : Bool) (max visibilityTimeoutMs tsMs : Nat)
  | sleep (id : Nat) (wakeMs : Nat)
  /-- The round ends, and with it the hold on the notifier; a subscription
  also wakes when a message is settled that it had pushed. -/
  | leave (id : Nat) (freed : Bool)
  /-- The state machine applies an entry. -/
  | applied (req : AppRequest) (answered : Bool)
  /-- A handler that has its response does what it owes. -/
  | settle (i : Nat)

def gcNotifiers (strongCount : Nat → Nat) (map : OrdMap TopicId Nat) : OrdMap TopicId Nat :=
  if map.size > notifierGcThreshold then map.filter fun _ n => strongCount n > 1 else map

namespace FrontEnd

/-- `Arc::strong_count`: the map, and the handlers that hold a clone. -/
def strongCount (s : FrontEnd) (n : Nat) : Nat :=
  1 + s.handlers.values.countP fun h => h.cell = n

/-- The map after `Ctx::notifier`, and the notifier. -/
def notifier (s : FrontEnd) (topic : TopicId) : OrdMap TopicId Nat × Nat :=
  let map := gcNotifiers s.strongCount s.notifiers
  match map.get? topic with
  | some n => (map, n)
  | none => (map.insert topic s.nextNotifier, s.nextNotifier)

def enter (s : FrontEnd) (id : Nat) (topic : TopicId) (group : GroupId) : FrontEnd :=
  let (map, n) := s.notifier topic
  { s with notifiers := map, nextNotifier := s.nextNotifier + 1
           handlers := s.handlers.insert id { key := topic, cell := n, group := group } }

/-- What happens to one handler. -/
def update (s : FrontEnd) (id : Nat) (f : Handler → Option Handler) : Option FrontEnd :=
  (s.handlers.get? id).bind fun h => (f h).map fun h' =>
    { s with handlers := s.handlers.insert id h' }

def apply (s : FrontEnd) (req : AppRequest) (answered : Bool) : FrontEnd :=
  let (q, response) := s.queue.apply req
  let e : Applied := ⟨req, response, answered⟩
  { s with queue := q
           handlers := s.handlers.mapVals fun _ h => { h with toWaiter := h.toWaiter.note e }
           owed := s.owed ++ if answered then (followUp req response).toList else [] }

def look (s : FrontEnd) (id : Nat) : Option FrontEnd :=
  s.update id fun h =>
    if h.registered ∧ h.asleep = none then
      some { h with toWaiter := h.toWaiter.look, seen := s.queue }
    else none

/-- The clocks of the request have been read by now. -/
def Timely (s : FrontEnd) (req : AppRequest) : Prop :=
  ∀ ts ∈ (ClientEvent.request req).clocks, ts ≤ s.clock

instance (s : FrontEnd) (req : AppRequest) : Decidable (s.Timely req) :=
  inferInstanceAs (Decidable (∀ _ ∈ _, _))

def settle (s : FrontEnd) : FollowUp → FrontEnd
  | .notify topics =>
      { s with handlers := s.handlers.mapVals fun _ h =>
          { h with toWaiter := h.toWaiter.hear s.notifiers topics } }
  | .forget topic =>
      { s with notifiers := s.notifiers.erase topic
               handlers := s.handlers.mapVals fun _ h =>
                 { h with toWaiter := h.toWaiter.orphan topic } }

/-- One step; `none` when the event cannot happen in this state. -/
def step (s : FrontEnd) : FrontEvent → Option FrontEnd
  | .tick nowMs => if s.clock ≤ nowMs then some { s with clock := nowMs } else none
  | .enter id topic group =>
      if s.handlers.get? id = none ∧ checkNames topic group = .ok () then
        some (s.enter id topic group)
      else none
  | .listen id => s.update id fun h =>
      if h.registered then none else some { h with toWaiter := h.toWaiter.register }
  | .look id => s.look id
  | .polled id auto max visibilityTimeoutMs tsMs => do
      let h ← s.handlers.get? id
      let req : AppRequest :=
        if auto then .pollAuto h.key h.group max visibilityTimeoutMs tsMs
        else .poll h.key h.group max visibilityTimeoutMs tsMs
      if h.since.isSome ∧ h.asleep = none ∧ s.Timely req then
        let s' := s.apply req true
        -- A poll that brings something ends the round.
        if (s.queue.apply req).2 = .polled [] then s'.look id
        else some { s' with handlers := s'.handlers.erase id }
      else none
  | .sleep id wakeMs => s.update id fun h =>
      if h.since.isSome ∧ h.asleep = none ∧ wakeMs ≤ s.clock + maxSleepMs then
        some { h with asleep := some wakeMs }
      else none
  | .leave id freed => do
      let h ← s.handlers.get? id
      if freed ∨ h.told ∨ h.asleep.all (· ≤ s.clock) then
        some { s with handlers := s.handlers.erase id }
      else none
  | .applied req answered =>
      if answered → req.fromHandler ∧ s.Timely req then some (s.apply req answered) else none
  | .settle i => do
      let todo ← s.owed[i]?
      some ({ s with owed := s.owed.eraseIdx i }.settle todo)

def run (events : List FrontEvent) : Option FrontEnd := Machine.run step {} events

end FrontEnd

/-! ## What a handler can rely on -/

/-- A handler of this node will call the topic's notifier for the entry. -/
def About (e : Applied) (τ : TopicId) : Prop :=
  e.answered = true ∧ ∃ topics, followUp e.request e.response = some (.notify topics) ∧ τ ∈ topics

/-- The entries lead from one state to the other, with these responses. -/
def Queue.Leads : Queue → List Applied → Queue → Prop
  | q, [], q' => q' = q
  | q, e :: es, q' => e.response = (q.apply e.request).2 ∧ (q.apply e.request).1.Leads es q'

theorem Queue.Leads.snoc {q q' : Queue} {es : List Applied} (h : q.Leads es q') (req : AppRequest)
    (answered : Bool) :
    q.Leads (es ++ [⟨req, (q'.apply req).2, answered⟩]) (q'.apply req).1 := by
  induction es generalizing q with
  | nil =>
      cases h
      exact ⟨rfl, rfl⟩
  | cons e es ih => exact ⟨h.1, ih h.2⟩

def FollowUp.topics? : FollowUp → Option (List TopicId)
  | .notify topics => some topics
  | .forget _ => none

namespace FrontEnd

def calls (s : FrontEnd) : List (List TopicId) := s.owed.filterMap FollowUp.topics?

/-- The entries that followed what the handler has seen. -/
structure Since (s : FrontEnd) (seen : Queue) (es : List Applied) : Prop where
  shape : seen.Topics TopicShape
  leads : seen.Leads es s.queue
  handled : ∀ e ∈ es, e.answered = true → e.request.fromHandler = true ∧ s.Timely e.request

structure HandlerOk (s : FrontEnd) (h : Handler) : Prop where
  hears : Hears About s.notifiers s.calls h.toWaiter
  since : ∀ es, h.since = some es → s.Since h.seen es

structure Ok (s : FrontEnd) : Prop where
  shape : s.queue.Topics TopicShape
  handlers : ∀ {id h}, s.handlers.get? id = some h → s.HandlerOk h

theorem Ok.empty : Ok {} where
  shape := Queue.topicsAt_empty _
  handlers h := by cases h

variable {s s' : FrontEnd} {id : Nat} {h : Handler}

theorem Timely.mono {req : AppRequest} (ht : s.Timely req) (hle : s.clock ≤ s'.clock) :
    s'.Timely req := fun ts hts => (ht ts hts).trans hle

/-! ### The map of notifiers -/

/-- A notifier that a handler holds is not dropped. -/
theorem gc_keeps (hh : s.handlers.get? id = some h) {c : Nat}
    (hc : s.notifiers.get? h.key = some c) (hcell : h.cell = c) :
    (gcNotifiers s.strongCount s.notifiers).get? h.key = some c := by
  rw [gcNotifiers]
  split_ifs
  · rw [OrdMap.get?_filter_eq_some]
    refine ⟨hc, decide_eq_true ?_⟩
    have hpos : 0 < s.handlers.values.countP fun h => h.cell = c := by
      refine List.countP_pos_iff.mpr ⟨h, ?_, decide_eq_true hcell⟩
      exact List.mem_map.mpr ⟨(id, h), OrdMap.get?_eq_some.mp hh, rfl⟩
    rw [strongCount]
    omega
  · exact hc

theorem notifier_keeps (hh : s.handlers.get? id = some h) {c : Nat}
    (hc : s.notifiers.get? h.key = some c) (hcell : h.cell = c) (topic : TopicId) :
    (s.notifier topic).1.get? h.key = some c := by
  have hgc := gc_keeps hh hc hcell
  rw [notifier]
  split
  · exact hgc
  · rename_i hnone
    rw [OrdMap.get?_insert, if_neg, hgc]
    intro heq
    rw [heq, hnone] at hgc
    cases hgc

theorem notifier_get (s : FrontEnd) (topic : TopicId) :
    (s.notifier topic).1.get? topic = some (s.notifier topic).2 := by
  rw [notifier]
  split
  · assumption
  · exact OrdMap.get?_insert_self ..

/-! ### Steps -/

theorem Ok.tick (hs : s.Ok) {nowMs : Nat} (hle : s.clock ≤ nowMs) :
    Ok { s with clock := nowMs } where
  shape := hs.shape
  handlers hh := by
    obtain ⟨hhears, hsince⟩ := hs.handlers hh
    exact ⟨hhears, fun es hes => { hsince es hes with
      handled := fun e he ha => (((hsince es hes).handled e he ha)).imp_right (·.mono hle) }⟩

theorem Ok.enter (hs : s.Ok) (topic : TopicId) (group : GroupId) :
    (s.enter id topic group).Ok where
  shape := hs.shape
  handlers {id' h'} hh := by
    simp only [FrontEnd.enter, OrdMap.get?_insert] at hh
    split_ifs at hh
    · cases hh
      exact ⟨.take (s.notifier_get topic), nofun⟩
    · obtain ⟨hhears, hsince⟩ := hs.handlers hh
      exact ⟨hhears.cells_change fun c hc hcell => notifier_keeps hh hc hcell topic,
        fun es hes => { hsince es hes with }⟩

/-- A step of one handler. -/
theorem Ok.update (hs : s.Ok) {f : Handler → Option Handler}
    (hf : ∀ h h', s.handlers.get? id = some h → f h = some h' → s.HandlerOk h')
    (hstep : s.update id f = some s') : s'.Ok := by
  obtain ⟨h, hh, hmap⟩ := Option.bind_eq_some_iff.mp hstep
  obtain ⟨h', hh', rfl⟩ := Option.map_eq_some_iff.mp hmap
  refine ⟨hs.shape, fun {id' k} hk => ?_⟩
  have hok : s.HandlerOk k := by
    simp only [OrdMap.get?_insert] at hk
    split_ifs at hk
    · cases hk
      exact hf h h' hh hh'
    · exact hs.handlers hk
  exact ⟨hok.hears, fun es hes => { hok.since es hes with }⟩

theorem Ok.erase (hs : s.Ok) (id : Nat) : Ok { s with handlers := s.handlers.erase id } where
  shape := hs.shape
  handlers hh := by
    simp only [OrdMap.get?_erase] at hh
    split_ifs at hh
    obtain ⟨hhears, hsince⟩ := hs.handlers hh
    exact ⟨hhears, fun es hes => { hsince es hes with }⟩

theorem Ok.look (hs : s.Ok) (hstep : s.look id = some s') : s'.Ok := by
  refine hs.update (fun h h' hh hf => ?_) hstep
  obtain ⟨⟨hreg, -⟩, hf⟩ := Option.ite_none_right_eq_some.mp hf
  cases hf
  refine ⟨(hs.handlers hh).hears.look hreg, fun es hes => ?_⟩
  cases hes
  exact ⟨hs.shape, rfl, nofun⟩

theorem calls_apply (s : FrontEnd) (req : AppRequest) (answered : Bool) :
    (s.apply req answered).calls = s.calls ++
      (if answered then (followUp req (s.queue.apply req).2).toList else []).filterMap
        FollowUp.topics? :=
  List.filterMap_append

theorem Ok.apply (hs : s.Ok) {req : AppRequest} {answered : Bool}
    (hanswered : answered = true → req.fromHandler = true ∧ s.Timely req) :
    (s.apply req answered).Ok where
  shape := (apply_steps s.queue req).shape hs.shape
  handlers {id h} hh := by
    simp only [FrontEnd.apply, OrdMap.get?_mapVals] at hh
    obtain ⟨h₀, hh₀, rfl⟩ := Option.map_eq_some_iff.mp hh
    obtain ⟨hhears, hsince⟩ := hs.handlers hh₀
    constructor
    · -- the handler of the write owes the call that the entry is about
      rw [calls_apply]
      refine hhears.note ?_
      rintro ⟨ha, topics, hfollow, hmem⟩
      refine ⟨topics, List.mem_filterMap.mpr ⟨.notify topics, ?_, rfl⟩, hmem⟩
      rw [if_pos ha, show followUp req (s.queue.apply req).2 = _ from hfollow]
      exact List.mem_singleton_self _
    · intro es hes
      obtain ⟨es₀, hes₀, rfl⟩ := Option.map_eq_some_iff.mp hes
      refine ⟨(hsince es₀ hes₀).shape, (hsince es₀ hes₀).leads.snoc req answered, ?_⟩
      intro e he ha
      rcases List.mem_append.mp he with hold | hnew
      · exact (hsince es₀ hes₀).handled e hold ha
      · rw [List.mem_singleton.mp hnew] at ha ⊢
        exact hanswered ha

/-- What the handler of a write owed is done. -/
theorem Ok.settle (hs : s.Ok) {i : Nat} {todo : FollowUp} (htodo : s.owed[i]? = some todo) :
    ({ s with owed := s.owed.eraseIdx i }.settle todo).Ok := by
  have hcalls : ∀ ks ∈ s.calls, some ks = todo.topics? ∨
      ks ∈ (s.owed.eraseIdx i).filterMap FollowUp.topics? := by
    intro ks hks
    obtain ⟨f, hf, hks⟩ := List.mem_filterMap.mp hks
    obtain ⟨j, hj⟩ := List.mem_iff_getElem?.mp hf
    by_cases hij : j = i
    · subst hij
      rw [htodo] at hj
      cases hj
      exact .inl hks.symm
    · exact .inr (List.mem_filterMap.mpr
        ⟨f, List.mem_eraseIdx_iff_getElem?.mpr ⟨j, hij, hj⟩, hks⟩)
  cases todo with
  | notify topics =>
      refine ⟨hs.shape, fun {id h} hh => ?_⟩
      simp only [FrontEnd.settle, OrdMap.get?_mapVals] at hh
      obtain ⟨h₀, hh₀, rfl⟩ := Option.map_eq_some_iff.mp hh
      obtain ⟨hhears, hsince⟩ := hs.handlers hh₀
      refine ⟨hhears.hear fun ks hks => (hcalls ks hks).imp_left fun heq => Option.some.inj heq,
        fun es hes => { hsince es ?_ with }⟩
      rwa [Waiter.hear_since] at hes
  | forget topic =>
      refine ⟨hs.shape, fun {id h} hh => ?_⟩
      simp only [FrontEnd.settle, OrdMap.get?_mapVals] at hh
      obtain ⟨h₀, hh₀, rfl⟩ := Option.map_eq_some_iff.mp hh
      obtain ⟨hhears, hsince⟩ := hs.handlers hh₀
      refine ⟨(hhears.orphan topic).more_calls fun ks hks => ?_,
        fun es hes => { hsince es ?_ with }⟩
      · exact (hcalls ks hks).resolve_left nofun
      · rwa [Waiter.orphan_since] at hes

theorem Ok.polled (hs : s.Ok) {req : AppRequest} (hreq : req.fromHandler = true ∧ s.Timely req)
    (hstep : (if (s.queue.apply req).2 = .polled [] then (s.apply req true).look id
      else some { s.apply req true with handlers := (s.apply req true).handlers.erase id }) =
        some s') : s'.Ok := by
  have happly : (s.apply req true).Ok := hs.apply fun _ => hreq
  split_ifs at hstep
  · exact happly.look hstep
  · cases hstep
    exact happly.erase id

theorem Ok.step (hs : s.Ok) {e : FrontEvent} (hstep : s.step e = some s') : s'.Ok := by
  cases e with
  | tick nowMs =>
      obtain ⟨hle, hs'⟩ := Option.ite_none_right_eq_some.mp hstep
      cases hs'
      exact hs.tick hle
  | enter id topic group =>
      obtain ⟨-, hs'⟩ := Option.ite_none_right_eq_some.mp hstep
      cases hs'
      exact hs.enter topic group
  | listen id =>
      refine hs.update (fun h h' hh hf => ?_) hstep
      obtain ⟨-, hf⟩ := Option.ite_none_left_eq_some.mp hf
      cases hf
      exact { hs.handlers hh with hears := (hs.handlers hh).hears.register }
  | look id => exact hs.look hstep
  | polled id auto max vis ts =>
      obtain ⟨h, hh, hstep⟩ := Option.bind_eq_some_iff.mp hstep
      obtain ⟨⟨-, -, htimely⟩, hstep⟩ := Option.ite_none_right_eq_some.mp hstep
      refine hs.polled ⟨?_, htimely⟩ hstep
      cases auto <;> rfl
  | sleep id wakeMs =>
      refine hs.update (fun h h' hh hf => ?_) hstep
      obtain ⟨-, hf⟩ := Option.ite_none_right_eq_some.mp hf
      cases hf
      exact { hs.handlers hh with }
  | leave id freed =>
      obtain ⟨h, hh, hstep⟩ := Option.bind_eq_some_iff.mp hstep
      obtain ⟨-, hs'⟩ := Option.ite_none_right_eq_some.mp hstep
      cases hs'
      exact hs.erase id
  | applied req answered =>
      obtain ⟨hreq, hs'⟩ := Option.ite_none_right_eq_some.mp hstep
      cases hs'
      exact hs.apply hreq
  | settle i =>
      obtain ⟨todo, htodo, hs'⟩ := Option.bind_eq_some_iff.mp hstep
      cases hs'
      exact hs.settle htodo

theorem run_ok {events : List FrontEvent} (hrun : run events = some s) : s.Ok :=
  Machine.run_keeps (fun _ _ _ hs hstep => Ok.step hs hstep) Ok.empty hrun

end FrontEnd

/-- A call that a writer owes reaches the handlers that wait for it. -/
theorem FrontEnd.settle_tells {s : FrontEnd} {id : Nat} {h : Handler}
    (hh : s.handlers.get? id = some h) (hhears : Hears About s.notifiers s.calls h.toWaiter)
    (hlooked : h.since ≠ none) (horphaned : h.orphaned = false) {topics : List TopicId}
    (htopics : topics ∈ s.calls) (hmem : h.key ∈ topics) :
    ∃ i s' h', s.step (.settle i) = some s' ∧ s'.handlers.get? id = some h' ∧ h'.told = true := by
  obtain ⟨todo, htodo, hcall⟩ := List.mem_filterMap.mp htopics
  obtain ⟨i, hi⟩ := List.mem_iff_getElem?.mp htodo
  cases todo with
  | forget topic => cases hcall
  | notify ts =>
      cases hcall
      refine ⟨i, { s with owed := s.owed.eraseIdx i }.settle (.notify topics),
        { h with toWaiter := h.toWaiter.hear s.notifiers topics }, ?_, ?_,
        hhears.told_of_hear horphaned hlooked hmem⟩
      · rw [step, hi]
        rfl
      · rw [settle, OrdMap.get?_mapVals, hh]
        rfl

/-! ## Nothing is slept through -/

theorem mem_batchTopics {items : List ProduceItem} {τ : TopicId} :
    τ ∈ batchTopics items ↔ ∃ item ∈ items, item.topic = τ := by
  have hpush (topics : List TopicId) (σ : TopicId) :
      τ ∈ (if σ ∈ topics then topics else topics ++ [σ]) ↔ τ ∈ topics ∨ σ = τ := by
    split_ifs with hmem
    · exact (or_iff_left_of_imp (· ▸ hmem)).symm
    · rw [List.mem_append, List.mem_singleton, eq_comm (a := τ)]
  have hfold (items : List ProduceItem) (topics : List TopicId) :
      τ ∈ items.foldl (fun topics item =>
        if item.topic ∈ topics then topics else topics ++ [item.topic]) topics ↔
        τ ∈ topics ∨ ∃ item ∈ items, item.topic = τ := by
    induction items generalizing topics with
    | nil => simp
    | cons item rest ih => rw [List.foldl_cons, ih, hpush, List.exists_mem_cons_iff, or_assoc]
  rw [batchTopics, hfold]
  simp

theorem AppRequest.clocks_of_sweepClock {req : AppRequest} {τ : TopicId} {ts : Nat}
    (h : req.sweepClock? τ = some ts) : ts ∈ (ClientEvent.request req).clocks := by
  cases req with
  | poll topic group max vis tsMs | pollAuto topic group max vis tsMs
  | commitOffsetAt topic group offset tsMs =>
      obtain ⟨-, hts⟩ := Option.ite_none_right_eq_some.mp h
      cases hts
      exact List.mem_singleton_self _
  | _ => cases h

/-- A write of a handler that nobody waiting on the topic is called for. -/
theorem spares_of_not_about {q : Queue} {e : Applied}
    (hresponse : e.response = (q.apply e.request).2) (hanswered : e.answered = true)
    (hhandler : e.request.fromHandler = true) {τ : TopicId} (h : ¬About e τ) :
    e.request.Spares τ ∨ (q.apply e.request).1 = q := by
  obtain ⟨req, response, answered⟩ := e
  cases hanswered
  simp only at hresponse hhandler ⊢
  subst hresponse
  cases req with
  | produce => cases hhandler
  | nack => cases hhandler
  | produceMany items =>
      cases hcheck : q.checkProduce items with
      | error reason => exact .inr (by rw [Queue.apply_produceMany_error hcheck])
      | ok u =>
          refine .inl ⟨fun item hitem htopic => h ⟨rfl, batchTopics items, ?_, ?_⟩, nofun⟩
          · show followUp _ (q.apply _).2 = _
            rw [Queue.apply_produceMany_ok hcheck]
            rfl
          · exact mem_batchTopics.mpr ⟨item, hitem, htopic⟩
  | nackMany topic group leaseIds =>
      refine .inl ⟨nofun, fun γ id hnacks => h ⟨rfl, [topic], rfl, ?_⟩⟩
      rw [hnacks.1]
      exact List.mem_singleton_self _
  | _ => exact .inl ⟨nofun, nofun⟩

/-- Entries that nobody is called for bring a quiet group nothing. -/
theorem Queue.Leads.quiet {q q' : Queue} {es : List Applied} (hleads : q.Leads es q') {τ : TopicId}
    {γ : GroupId} {now : Nat} (hes : ∀ e ∈ es, e.answered = true ∧ e.request.fromHandler = true ∧
      (∀ ts ∈ (ClientEvent.request e.request).clocks, ts ≤ now) ∧ ¬About e τ)
    (hq : q.QuietAt τ γ now) : q'.QuietAt τ γ now := by
  induction es generalizing q with
  | nil =>
      cases hleads
      exact hq
  | cons e es ih =>
      obtain ⟨hanswered, hhandler, hclocks, habout⟩ := hes e List.mem_cons_self
      refine ih hleads.2 (fun e' he' => hes e' (List.mem_cons_of_mem _ he')) ?_
      rcases spares_of_not_about hleads.1 hanswered hhandler habout with hspares | hsame
      · exact hq.apply hspares fun ts hts => hclocks ts (AppRequest.clocks_of_sweepClock hts)
      · rwa [hsame]

/-- A handler has looked and found nothing for its group that the present
time would make deliverable. If there is something now, the handler has
been called, or one that writes is about to call it; or the topic was
deleted since it took the notifier, or an entry was applied that no handler
of this node has the answer to. -/
theorem sleeper_hears {events : List FrontEvent} {s : FrontEnd}
    (hrun : FrontEnd.run events = some s) {id : Nat} {h : Handler} {es : List Applied}
    (hh : s.handlers.get? id = some h) (hsince : h.since = some es)
    (hbefore : h.seen.hasDeliverable h.key h.group s.clock = false)
    (hoffsets : ∀ t, h.seen.topics.get? h.key = some t → t.nextOffset < u64Max)
    (hactive : ∀ t g, h.seen.topics.get? h.key = some t → t.groups.get? h.group = some g →
      s.clock ≤ g.lastActiveMs + groupIdleExpireMs)
    (hnews : s.queue.hasDeliverable h.key h.group s.clock = true) :
    h.told = true ∨
    (∃ i s' h', s.step (.settle i) = some s' ∧ s'.handlers.get? id = some h' ∧ h'.told = true) ∨
    h.orphaned = true ∨
    ∃ e ∈ es, e.answered = false := by
  obtain ⟨hhears, hs⟩ := (FrontEnd.run_ok hrun).handlers hh
  have hs := hs es hsince
  by_cases habout : ∃ e ∈ es, About e h.key
  · obtain ⟨e, he, habout⟩ := habout
    cases htold : h.told with
    | true => exact .inl rfl
    | false =>
        cases horphaned : h.orphaned with
        | true => exact .inr (.inr (.inl rfl))
        | false =>
            obtain ⟨topics, htopics, hmem⟩ := hhears.heard horphaned htold es hsince e he habout
            have hlooked : h.since ≠ none := hsince ▸ Option.some_ne_none es
            exact .inr (.inl (FrontEnd.settle_tells hh hhears hlooked horphaned htopics hmem))
  · by_cases hall : ∃ e ∈ es, e.answered = false
    · exact .inr (.inr (.inr hall))
    · -- the clock made nothing deliverable, and no entry did
      have hquiet : s.queue.QuietAt h.key h.group s.clock := by
        refine hs.leads.quiet (fun e he => ?_) (.of_closed hs.shape hbefore hoffsets hactive)
        have hanswered : e.answered = true := by
          by_contra hno
          exact hall ⟨e, he, by simpa using hno⟩
        obtain ⟨hhandler, htimely⟩ := hs.handled e he hanswered
        exact ⟨hanswered, hhandler, htimely, fun ha => habout ⟨e, he, ha⟩⟩
      rw [hquiet.closed] at hnews
      cases hnews

/-- A batch of one message. -/
def batchOfOne (topic : TopicId) : AppRequest :=
  .produceMany [⟨topic, .default, .raw, [1], "", 0, 0⟩]

def unannounced : List FrontEvent :=
  [.enter 0 "t" "g", .listen 0, .look 0, .sleep 0 150, .applied (batchOfOne "t") true]

/-- A handler that sleeps, and a message that is not announced yet. -/
theorem sleeper_hears_pending :
    ∃ s h es, FrontEnd.run unannounced = some s ∧
      s.handlers.get? 0 = some h ∧ h.since = some es ∧ h.asleep = some 150 ∧ h.told = false ∧
      s.queue.hasDeliverable h.key h.group s.clock = true ∧
      ∃ i s' h', s.step (.settle i) = some s' ∧ s'.handlers.get? 0 = some h' ∧ h'.told = true := by
  refine ⟨_, _, _, rfl, rfl, rfl, rfl, rfl, rfl, ?_⟩
  have hrun : FrontEnd.run unannounced = some _ := rfl
  rcases @sleeper_hears _ _ hrun 0 _ _ rfl rfl rfl (fun t ht => by cases ht)
    (fun t g ht => by cases ht) rfl with htold | hcall | horphaned | ⟨e, he, hno⟩
  · cases htold
  · exact hcall
  · cases horphaned
  · cases List.mem_singleton.mp he
    cases hno

-- A topic that is deleted and comes back: the handler has the old notifier.
example : ((FrontEnd.run [.enter 0 "t" "g", .listen 0, .look 0, .sleep 0 150,
      .applied (.deleteTopic "t") true, .settle 0, .applied (batchOfOne "t") true,
      .settle 0]).map fun s => ((s.handlers.get? 0).map (·.told), s.owed.length,
        s.queue.hasDeliverable "t" "g" s.clock)) = some (some false, 0, true) := by
  rfl

end HermesMq
