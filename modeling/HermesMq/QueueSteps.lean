import HermesMq.Queue
import HermesMq.TopicLemmas
import Mathlib.Logic.Relation

/-!
# Requests as sequences of primitive steps

Fourteen request kinds change a queue through a handful of primitive
transformations of one topic (`TopicOp`), plus creating and deleting a
topic. `apply_steps` says so once: whatever a request does is a sequence
of primitive steps, each one allowed by the request (`AllowedBy`) and
taken in a state where the code takes it (`Pre`).

Every invariant of the queue is proved against the primitive steps and
carried to requests by `Steps.invariant`.
-/

namespace HermesMq

/-! ## What a request names -/

namespace AppRequest

/-- The messages a produce carries. -/
def items : AppRequest → List ProduceItem
  | .produce topic priority contentType payload producerId seq tsMs =>
      [⟨topic, priority, contentType, payload, producerId, seq, tsMs⟩]
  | .produceMany items => items
  | _ => []

/-- The clock a request brings to the idle sweep of topic `τ`: polls and
stamped commits sweep. -/
def sweepClock? (τ : TopicId) : AppRequest → Option Nat
  | .poll topic _ _ _ tsMs => if topic = τ then some tsMs else none
  | .pollAuto topic _ _ _ tsMs => if topic = τ then some tsMs else none
  | .commitOffsetAt topic _ _ tsMs => if topic = τ then some tsMs else none
  | _ => none

/-- A poll of group `γ` on topic `τ`: its clock and the deadline of the
leases it takes. -/
def pollOf? (τ : TopicId) (γ : GroupId) : AppRequest → Option (Nat × Nat)
  | .poll topic group _ visibilityTimeoutMs tsMs =>
      if topic = τ ∧ group = γ then
        some (tsMs, satAdd tsMs (min visibilityTimeoutMs maxVisibilityMs))
      else none
  | .pollAuto topic group _ visibilityTimeoutMs tsMs =>
      if topic = τ ∧ group = γ then
        some (tsMs, satAdd tsMs (min visibilityTimeoutMs maxVisibilityMs))
      else none
  | _ => none

theorem pollOf?_eq_some {req : AppRequest} {τ : TopicId} {γ : GroupId} {ts d : Nat}
    (h : req.pollOf? τ γ = some (ts, d)) :
    ∃ max vis, (req = .poll τ γ max vis ts ∨ req = .pollAuto τ γ max vis ts) ∧
      d = satAdd ts (min vis maxVisibilityMs) := by
  cases req with
  | poll topic group max vis tsMs =>
      rw [pollOf?] at h
      split_ifs at h with heq
      obtain ⟨rfl, rfl⟩ := heq
      obtain ⟨rfl, rfl⟩ := Prod.mk.inj (Option.some.inj h)
      exact ⟨max, vis, Or.inl rfl, rfl⟩
  | pollAuto topic group max vis tsMs =>
      rw [pollOf?] at h
      split_ifs at h with heq
      obtain ⟨rfl, rfl⟩ := heq
      obtain ⟨rfl, rfl⟩ := Prod.mk.inj (Option.some.inj h)
      exact ⟨max, vis, Or.inr rfl, rfl⟩
  | _ => cases h

/-- The request acks lease `id` for group `γ` on topic `τ`; a `PollAuto`
acks whatever it delivers. -/
def Acks (τ : TopicId) (γ : GroupId) (id : LeaseId) : AppRequest → Prop
  | .ack topic group leaseId => topic = τ ∧ group = γ ∧ leaseId = id
  | .ackMany topic group leaseIds => topic = τ ∧ group = γ ∧ id ∈ leaseIds
  | .pollAuto topic group _ _ _ => topic = τ ∧ group = γ
  | _ => False

/-- The request nacks lease `id` for group `γ` on topic `τ`. -/
def Nacks (τ : TopicId) (γ : GroupId) (id : LeaseId) : AppRequest → Prop
  | .nack topic group leaseId => topic = τ ∧ group = γ ∧ leaseId = id
  | .nackMany topic group leaseIds => topic = τ ∧ group = γ ∧ id ∈ leaseIds
  | _ => False

/-- A commit of group `γ` on topic `τ`: its offset and clock. -/
def commitOf? (τ : TopicId) (γ : GroupId) : AppRequest → Option (Offset × Option Nat)
  | .commitOffset topic group offset =>
      if topic = τ ∧ group = γ then some (offset, none) else none
  | .commitOffsetAt topic group offset tsMs =>
      if topic = τ ∧ group = γ then some (offset, some tsMs) else none
  | _ => none

end AppRequest

/-! ## Primitive steps -/

inductive TopicOp where
  | append (item : ProduceItem)
  | purge (nowMs : Nat)
  | sweep (nowMs : Nat)
  | reclaim
  | openGroup (group : GroupId) (nowMs : Option Nat)
  | beginPoll (group : GroupId) (tsMs : Nat)
  | lease (group : GroupId) (id : LeaseId) (offset : Offset) (deadlineMs : Nat)
  | ack (group : GroupId) (id : LeaseId)
  | nack (group : GroupId) (id : LeaseId)
  | commit (group : GroupId) (upto : Offset) (nowMs : Option Nat)
  | configure (rateMilliPerSec burst retainMaxMessages retainMaxAgeMs : Nat)

namespace TopicOp

def run (t : TopicState) : TopicOp → TopicState
  | .append item => appendMessage t item
  | .purge now => purgeRetained t now
  | .sweep now => sweepAndReclaim t now
  | .reclaim => HermesMq.reclaim t
  | .openGroup group now => putGroup t group (freshGroup t now)
  | .beginPoll group ts => updateGroup t group (·.beginPoll ts)
  | .lease group id o d => updateGroup t group (·.takeLease id o d)
  | .ack group id => ackTopic t group id
  | .nack group id => nackTopic t group id
  | .commit group upto now => updateGroup t group fun g => (g.advanceWatermark upto).touch now
  | .configure rate burst cap age =>
      { t with rateMilliPerSec := rate, burst := burst
               retainMaxMessages := cap, retainMaxAgeMs := age }

/-- The lease counter after the step. -/
def nextLease (n : LeaseId) : TopicOp → LeaseId
  | .lease .. => satAdd n 1
  | _ => n

/-- The states the code takes the step in. -/
def Pre (t : TopicState) (n : LeaseId) : TopicOp → Prop
  | .append item => item.producerId ≠ "" → t.dedup.get? item.dedupKey = none
  | .openGroup group _ => t.groups.get? group = none ∧ t.groups.size < maxGroupsPerTopic
  | .lease group id o _ => id = n ∧
      ∃ g, t.groups.get? group = some g ∧ Deliverable t.messages g o
  | .commit _ upto _ => upto ≤ t.nextOffset
  | _ => True

/-- The requests that take the step on topic `τ`. -/
def AllowedBy (req : AppRequest) (τ : TopicId) : TopicOp → Prop
  | .append item => item ∈ req.items ∧ item.topic = τ
  | .purge now => ∃ item ∈ req.items, item.topic = τ ∧ item.tsMs = now
  | .sweep now => req.sweepClock? τ = some now
  | .reclaim => True
  | .openGroup group now => (∃ d, ∃ ts, req.pollOf? τ group = some (ts, d) ∧ now = some ts) ∨
      ∃ off, req.commitOf? τ group = some (off, now)
  | .beginPoll group ts => ∃ d, req.pollOf? τ group = some (ts, d)
  | .lease group _ _ d => ∃ ts, req.pollOf? τ group = some (ts, d)
  | .ack group id => req.Acks τ group id
  | .nack group id => req.Nacks τ group id
  | .commit group upto now => ∃ off, req.commitOf? τ group = some (off, now) ∧ upto ≤ off
  | .configure .. => True

/-- A request that produces nothing neither appends nor purges. -/
theorem AllowedBy.of_no_items {req : AppRequest} {τ : TopicId} {op : TopicOp}
    (h : op.AllowedBy req τ) (hitems : req.items = []) :
    (∀ item, op ≠ .append item) ∧ ∀ now, op ≠ .purge now := by
  constructor
  · rintro item rfl
    have hmem := h.1
    rw [hitems] at hmem
    cases hmem
  · rintro now rfl
    obtain ⟨item, hmem, -⟩ := h
    rw [hitems] at hmem
    cases hmem

end TopicOp

inductive QueueOp where
  | create (τ : TopicId)
  | delete (τ : TopicId)
  | topic (τ : TopicId) (op : TopicOp)

namespace QueueOp

def run (q : Queue) : QueueOp → Queue
  | .create τ => q.putTopic τ {}
  | .delete τ => { q with topics := q.topics.erase τ }
  | .topic τ op =>
      { q.updateTopic τ op.run with nextLeaseId := op.nextLease q.nextLeaseId }

def Pre (q : Queue) : QueueOp → Prop
  | .create τ => q.topics.get? τ = none
  | .delete _ => True
  | .topic τ op => ∃ t, q.topics.get? τ = some t ∧ op.Pre t q.nextLeaseId

def AllowedBy (req : AppRequest) : QueueOp → Prop
  | .create _ => True
  | .delete τ => req = .deleteTopic τ
  | .topic τ op => op.AllowedBy req τ

end QueueOp

/-- One primitive step of request `req`. -/
def QueueStep (req : AppRequest) (q q' : Queue) : Prop :=
  ∃ op : QueueOp, op.AllowedBy req ∧ op.Pre q ∧ q' = op.run q

abbrev Steps (req : AppRequest) : Queue → Queue → Prop :=
  Relation.ReflTransGen (QueueStep req)

theorem Steps.invariant {req : AppRequest} {P : Queue → Prop}
    (hstep : ∀ q op, QueueOp.AllowedBy req op → op.Pre q → P q → P (op.run q))
    {q q' : Queue} (h : Steps req q q') (hq : P q) : P q' := by
  induction h with
  | refl => exact hq
  | tail _ hs ih =>
      obtain ⟨op, hallow, hpre, rfl⟩ := hs
      exact hstep _ op hallow hpre ih

/-! ## Steps inside one topic -/

theorem Queue.putTopic_topics (q : Queue) (τ σ : TopicId) (t : TopicState) :
    (q.putTopic τ t).topics.get? σ = if σ = τ then some t else q.topics.get? σ :=
  OrdMap.get?_insert ..

theorem Queue.putTopic_self {q : Queue} {τ : TopicId} {t : TopicState}
    (h : q.topics.get? τ = some t) : q.putTopic τ t = q := by
  have ht : q.topics.insert τ t = q.topics := by
    refine OrdMap.ext_get? fun σ => ?_
    rw [OrdMap.get?_insert]
    split_ifs with hσ
    · rw [hσ, h]
    · rfl
  unfold Queue.putTopic
  rw [ht]

theorem Queue.insert_insert (q : Queue) (τ : TopicId) (t t' : TopicState) :
    (q.topics.insert τ t).insert τ t' = q.topics.insert τ t' := by
  refine OrdMap.ext_get? fun σ => ?_
  simp only [OrdMap.get?_insert]
  split_ifs <;> rfl

theorem Queue.updateTopic_eq (q : Queue) (τ : TopicId) (f : TopicState → TopicState) :
    q.updateTopic τ f = { q with topics := q.topics.modify τ f } := by
  unfold updateTopic OrdMap.modify
  cases q.topics.get? τ <;> rfl

theorem Queue.updateTopic_topics (q : Queue) (τ σ : TopicId) (f : TopicState → TopicState) :
    (q.updateTopic τ f).topics.get? σ =
      (q.topics.get? σ).map fun t => if σ = τ then f t else t := by
  rw [updateTopic_eq]
  exact OrdMap.get?_modify ..

/-- Updates of one topic along a list are one update. -/
theorem Queue.foldl_updateTopic {α : Type} (q : Queue) (τ : TopicId)
    (f : TopicState → α → TopicState) (l : List α) :
    l.foldl (fun q a => q.updateTopic τ (f · a)) q = q.updateTopic τ fun t => l.foldl f t := by
  induction l generalizing q with
  | nil =>
      rw [updateTopic_eq]
      exact congrArg (Queue.mk · q.nextLeaseId) (OrdMap.modify_id q.topics τ).symm
  | cons a rest ih =>
      rw [List.foldl_cons, ih]
      simp only [updateTopic_eq, OrdMap.modify_modify, List.foldl_cons]

theorem Queue.updateTopic_of_some {q : Queue} {τ : TopicId} {t : TopicState}
    (h : q.topics.get? τ = some t) (f : TopicState → TopicState) :
    q.updateTopic τ f = q.putTopic τ (f t) := by
  rw [Queue.updateTopic, h]

theorem Queue.updateTopic_of_none {q : Queue} {τ : TopicId}
    (h : q.topics.get? τ = none) (f : TopicState → TopicState) :
    q.updateTopic τ f = q := by
  rw [Queue.updateTopic, h]

/-- A topic and the lease counter after one step of `req` on topic `τ`. -/
def TopicStep (req : AppRequest) (τ : TopicId) (s s' : TopicState × LeaseId) : Prop :=
  ∃ op : TopicOp, op.AllowedBy req τ ∧ op.Pre s.1 s.2 ∧
    s' = (op.run s.1, op.nextLease s.2)

abbrev TopicSteps (req : AppRequest) (τ : TopicId) :
    TopicState × LeaseId → TopicState × LeaseId → Prop :=
  Relation.ReflTransGen (TopicStep req τ)

theorem TopicSteps.single {req : AppRequest} {τ : TopicId} {t : TopicState} {n : LeaseId}
    (op : TopicOp) (hallow : op.AllowedBy req τ) (hpre : op.Pre t n) :
    TopicSteps req τ (t, n) (op.run t, op.nextLease n) :=
  Relation.ReflTransGen.single ⟨op, hallow, hpre, rfl⟩

theorem TopicSteps.lift {req : AppRequest} {τ : TopicId} {q : Queue} {t : TopicState}
    (hq : q.topics.get? τ = some t) {s : TopicState × LeaseId}
    (h : TopicSteps req τ (t, q.nextLeaseId) s) :
    Steps req q { q.putTopic τ s.1 with nextLeaseId := s.2 } := by
  induction h with
  | refl =>
      rw [show ({ q.putTopic τ t with nextLeaseId := q.nextLeaseId } : Queue) = q.putTopic τ t
        from rfl, Queue.putTopic_self hq]
  | @tail s s' _ hs ih =>
      obtain ⟨op, hallow, hpre, rfl⟩ := hs
      have hget : ({ q.putTopic τ s.1 with nextLeaseId := s.2 } : Queue).topics.get? τ
          = some s.1 := OrdMap.get?_insert_self ..
      refine ih.tail ⟨.topic τ op, hallow, ⟨s.1, hget, hpre⟩, ?_⟩
      simp only [QueueOp.run]
      rw [Queue.updateTopic_of_some hget]
      simp only [Queue.putTopic, Queue.insert_insert]

/-- A topic update whose steps leave the lease counter alone, applied
through `updateTopic` and so doing nothing to a missing topic. -/
theorem TopicSteps.update {req : AppRequest} {τ : TopicId} {f : TopicState → TopicState}
    (h : ∀ t n, TopicSteps req τ (t, n) (f t, n)) (q : Queue) :
    Steps req q (q.updateTopic τ f) := by
  cases hq : q.topics.get? τ with
  | none => rw [Queue.updateTopic_of_none hq]
  | some t =>
      rw [Queue.updateTopic_of_some hq]
      exact (h t q.nextLeaseId).lift hq

/-! ## The consumer operations -/

theorem leaseChosen_steps {req : AppRequest} {τ : TopicId} {γ : GroupId} {t : TopicState}
    {ts d : Nat} (hreq : req.pollOf? τ γ = some (ts, d)) :
    ∀ (l : List Ranked) (g : GroupState) (n : LeaseId), (l.map Prod.snd).Nodup →
      (∀ x ∈ l, Deliverable t.messages g x.2) →
      TopicSteps req τ (putGroup t γ g, n)
        (putGroup t γ (leaseChosen t.messages d l g n).1,
          (leaseChosen t.messages d l g n).2.1) := by
  intro l
  induction l with
  | nil => exact fun _ _ _ _ => Relation.ReflTransGen.refl
  | cons x rest ih =>
      intro g n hnd hdel
      rw [List.map_cons, List.nodup_cons] at hnd
      have hallow : TopicOp.AllowedBy req τ (.lease γ n x.2 d) := ⟨ts, hreq⟩
      have hhead := TopicSteps.single (t := putGroup t γ g) (n := n) _ hallow
        ⟨rfl, g, OrdMap.get?_insert_self .., hdel x (List.mem_cons_self ..)⟩
      rw [show TopicOp.run (putGroup t γ g) (.lease γ n x.2 d)
        = putGroup t γ (g.takeLease n x.2 d) from updateGroup_putGroup ..] at hhead
      refine hhead.trans (ih _ _ hnd.2 fun y hy => ?_)
      have hy' := hdel y (List.mem_cons_of_mem _ hy)
      have hne : y.2 ≠ x.2 := fun h => hnd.1 (h ▸ List.mem_map.mpr ⟨y, hy, rfl⟩)
      refine ⟨hy'.retained, hy'.above, hy'.unacked, ?_⟩
      rw [GroupState.takeLease, OrdMap.get?_insert_ne _ _ hne]
      exact hy'.unleased

/-- Entering a group: either it is there, or it is opened fresh. -/
theorem groupEntry_steps {req : AppRequest} {τ : TopicId} {γ : GroupId} {t : TopicState}
    {now : Option Nat} {g : GroupState} (n : LeaseId)
    (hallow : TopicOp.AllowedBy req τ (.openGroup γ now))
    (h : groupEntry t γ now = some g) :
    TopicSteps req τ (t, n) (putGroup t γ g, n) := by
  unfold groupEntry at h
  split_ifs at h with hfull
  cases hg : t.groups.get? γ with
  | some g' =>
      rw [hg] at h
      obtain rfl : g' = g := Option.some.inj h
      rw [putGroup_self hg]
  | none =>
      rw [hg] at h
      obtain rfl : freshGroup t now = g := Option.some.inj h
      refine TopicSteps.single (.openGroup γ now) hallow ⟨hg, ?_⟩
      simpa [OrdMap.contains, hg] using hfull

theorem pollTopic_steps {req : AppRequest} {τ : TopicId} {γ : GroupId} {ts vis : Nat}
    (hclock : req.sweepClock? τ = some ts)
    (hreq : req.pollOf? τ γ = some (ts, satAdd ts (min vis maxVisibilityMs)))
    (t : TopicState) (max : Nat) (n : LeaseId) :
    TopicSteps req τ (t, n)
      ((pollTopic t γ max vis ts n).1, (pollTopic t γ max vis ts n).2.1) := by
  refine Relation.ReflTransGen.trans
    (TopicSteps.single (.sweep ts) hclock trivial) ?_
  simp only [pollTopic, TopicOp.run, TopicOp.nextLease]
  generalize sweepAndReclaim t ts = t1
  cases hg : groupEntry t1 γ (some ts) with
  | none => exact Relation.ReflTransGen.refl
  | some g0 =>
      refine Relation.ReflTransGen.trans
        (groupEntry_steps n (Or.inl ⟨_, ts, hreq, rfl⟩) hg) ?_
      have hbegin := TopicSteps.single (t := putGroup t1 γ g0) (n := n)
        (.beginPoll γ ts) ⟨_, hreq⟩ trivial
      rw [show TopicOp.run (putGroup t1 γ g0) (.beginPoll γ ts)
        = putGroup t1 γ (g0.beginPoll ts) from updateGroup_putGroup ..] at hbegin
      refine Relation.ReflTransGen.trans hbegin ?_
      simp only [TopicOp.nextLease, pollGroup]
      split_ifs
      · exact Relation.ReflTransGen.refl
      · exact leaseChosen_steps hreq _ _ _ (choose_nodup ..) fun x hx => mem_choose hx

theorem commitTopic_steps {req : AppRequest} {τ : TopicId} {γ : GroupId} {off : Offset}
    {now : Option Nat} (hreq : req.commitOf? τ γ = some (off, now))
    (hclock : req.sweepClock? τ = now) (t : TopicState) (n : LeaseId) :
    TopicSteps req τ (t, n) (commitTopic t γ off now, n) := by
  have hsweep : TopicSteps req τ (t, n)
      (now.elim t (sweepAndReclaim t), n) := by
    cases now with
    | none => exact Relation.ReflTransGen.refl
    | some ts => exact TopicSteps.single (.sweep ts) hclock trivial
  refine hsweep.trans ?_
  simp only [commitTopic]
  generalize now.elim t (sweepAndReclaim t) = t1
  cases hg : groupEntry t1 γ now with
  | none => exact Relation.ReflTransGen.refl
  | some g =>
      refine Relation.ReflTransGen.trans (groupEntry_steps n (Or.inr ⟨off, hreq⟩) hg) ?_
      have hcommit := TopicSteps.single (t := putGroup t1 γ g) (n := n)
        (.commit γ (min off t1.nextOffset) now) ⟨off, hreq, min_le_left ..⟩
        (min_le_right off t1.nextOffset)
      rwa [show TopicOp.run (putGroup t1 γ g) (.commit γ (min off t1.nextOffset) now)
        = putGroup t1 γ ((g.advanceWatermark (min off t1.nextOffset)).touch now)
        from updateGroup_putGroup ..] at hcommit

theorem reclaim_steps (req : AppRequest) (τ : TopicId) (q : Queue) :
    Steps req q (q.reclaimTopic τ) :=
  TopicSteps.update (fun _ _ => TopicSteps.single .reclaim trivial trivial) q

theorem ack_steps {req : AppRequest} {τ : TopicId} {γ : GroupId} {id : LeaseId}
    (hreq : req.Acks τ γ id) (q : Queue) : Steps req q (q.ack τ γ id) :=
  TopicSteps.update (fun _ _ => TopicSteps.single (.ack γ id) hreq trivial) q

theorem nack_steps {req : AppRequest} {τ : TopicId} {γ : GroupId} {id : LeaseId}
    (hreq : req.Nacks τ γ id) (q : Queue) : Steps req q (q.nack τ γ id) :=
  TopicSteps.update (fun _ _ => TopicSteps.single (.nack γ id) hreq trivial) q

theorem foldl_steps {req : AppRequest} {α : Type} {f : Queue → α → Queue} {l : List α}
    (h : ∀ a ∈ l, ∀ q, Steps req q (f q a)) (q : Queue) : Steps req q (l.foldl f q) :=
  List.foldlRecOn l f Relation.ReflTransGen.refl fun b hb a ha => hb.trans (h a ha b)

theorem poll_steps {req : AppRequest} {τ : TopicId} {γ : GroupId} {max vis ts : Nat}
    (hclock : req.sweepClock? τ = some ts)
    (hreq : req.pollOf? τ γ = some (ts, satAdd ts (min vis maxVisibilityMs)))
    (q : Queue) : Steps req q (q.poll τ γ max vis ts).1 := by
  unfold Queue.poll
  cases hq : q.topics.get? τ with
  | none => exact Relation.ReflTransGen.refl
  | some t => exact (pollTopic_steps hclock hreq t max q.nextLeaseId).lift hq

/-! ## Producing and configuring -/

/-- `entry(τ).or_default()` followed by steps on the topic. -/
theorem orDefault_steps {req : AppRequest} {τ : TopicId} {f : TopicState → TopicState}
    (h : ∀ t n, TopicSteps req τ (t, n) (f t, n)) (q : Queue) :
    Steps req q (q.putTopic τ (f (q.topicOrDefault τ))) := by
  unfold Queue.topicOrDefault
  cases hq : q.topics.get? τ with
  | some t => exact (h t q.nextLeaseId).lift hq
  | none =>
      have hcreate : Steps req q (q.putTopic τ {}) :=
        Relation.ReflTransGen.single ⟨.create τ, trivial, hq, rfl⟩
      refine hcreate.trans ?_
      have hsteps := (h {} (q.putTopic τ {}).nextLeaseId).lift
        (OrdMap.get?_insert_self q.topics τ {})
      simpa only [Queue.putTopic, Queue.insert_insert, Option.getD_none] using hsteps

theorem produceTopic_steps {req : AppRequest} {item : ProduceItem}
    (hreq : item ∈ req.items) (t : TopicState) (n : LeaseId) :
    TopicSteps req item.topic (t, n) ((produceTopic t item).1, n) := by
  have hpurge : ∀ t', TopicSteps req item.topic (t', n) (purgeRetained t' item.tsMs, n) :=
    fun t' => TopicSteps.single (.purge item.tsMs) ⟨item, hreq, rfl, rfl⟩ trivial
  unfold produceTopic
  simp only
  split
  · exact hpurge t
  · rename_i hdup
    refine Relation.ReflTransGen.trans
      (TopicSteps.single (.append item) ⟨hreq, rfl⟩ fun hne => ?_) (hpurge _)
    rwa [if_pos hne] at hdup

theorem produceOne_steps {req : AppRequest} {item : ProduceItem}
    (hreq : item ∈ req.items) (q : Queue) : Steps req q (q.produceOne item).1 :=
  orDefault_steps (f := fun t => (produceTopic t item).1) (produceTopic_steps hreq) q

theorem produceAll_steps {req : AppRequest} {items : List ProduceItem}
    (hreq : ∀ item ∈ items, item ∈ req.items) (q : Queue) :
    Steps req q (q.produceAll items).1 := by
  induction items generalizing q with
  | nil => exact Relation.ReflTransGen.refl
  | cons item rest ih =>
      exact (produceOne_steps (hreq item (List.mem_cons_self ..)) q).trans
        (ih (fun i hi => hreq i (List.mem_cons_of_mem _ hi)) _)

/-! ## Every request -/

theorem apply_steps (q : Queue) (req : AppRequest) : Steps req q (q.apply req).1 := by
  cases req with
  | createTopic topic =>
      simp only [Queue.apply]
      split
      · exact Relation.ReflTransGen.refl
      · exact orDefault_steps (f := id) (fun _ _ => Relation.ReflTransGen.refl) q
  | deleteTopic topic =>
      exact Relation.ReflTransGen.single ⟨.delete topic, rfl, trivial, rfl⟩
  | produce topic priority contentType payload producerId seq tsMs =>
      simp only [Queue.apply]
      split
      · exact Relation.ReflTransGen.refl
      · exact produceOne_steps (List.mem_singleton.mpr rfl) q
  | produceMany items =>
      simp only [Queue.apply]
      split
      · exact Relation.ReflTransGen.refl
      · exact produceAll_steps (fun _ h => h) q
  | poll topic group max vis ts =>
      simp only [Queue.apply]
      split
      · exact Relation.ReflTransGen.refl
      · exact poll_steps (by simp [AppRequest.sweepClock?]) (by simp [AppRequest.pollOf?]) q
  | pollAuto topic group max vis ts =>
      simp only [Queue.apply]
      split
      · exact Relation.ReflTransGen.refl
      · have hpoll : Steps (.pollAuto topic group max vis ts) q
            (q.poll topic group max vis ts).1 :=
          poll_steps (by simp [AppRequest.sweepClock?]) (by simp [AppRequest.pollOf?]) q
        refine hpoll.trans (Relation.ReflTransGen.trans (foldl_steps (fun _ _ q => ?_) _)
          (reclaim_steps ..))
        exact ack_steps (by simp [AppRequest.Acks]) q
  | ack topic group leaseId =>
      exact (ack_steps (by simp [AppRequest.Acks]) q).trans (reclaim_steps ..)
  | ackMany topic group leaseIds =>
      exact (foldl_steps (fun _ h q => ack_steps (by simpa [AppRequest.Acks] using h) q) q).trans
        (reclaim_steps ..)
  | nackMany topic group leaseIds =>
      exact foldl_steps (fun _ h q => nack_steps (by simpa [AppRequest.Nacks] using h) q) q
  | nack topic group leaseId => exact nack_steps (by simp [AppRequest.Nacks]) q
  | commitOffset topic group offset =>
      simp only [Queue.apply]
      split
      · exact Relation.ReflTransGen.refl
      · exact (TopicSteps.update
          (commitTopic_steps (by simp [AppRequest.commitOf?]) (show _ = none from rfl)) q).trans
          (reclaim_steps ..)
  | commitOffsetAt topic group offset tsMs =>
      simp only [Queue.apply]
      split
      · exact Relation.ReflTransGen.refl
      · exact (TopicSteps.update (commitTopic_steps (by simp [AppRequest.commitOf?])
          (by simp [AppRequest.sweepClock?])) q).trans (reclaim_steps ..)
  | setRateLimit topic rate burst =>
      simp only [Queue.apply]
      split
      · exact Relation.ReflTransGen.refl
      · exact orDefault_steps (f := fun t => { t with rateMilliPerSec := rate, burst := burst })
          (fun t _ => TopicSteps.single
            (.configure rate burst t.retainMaxMessages t.retainMaxAgeMs) trivial trivial) q
  | setRetention topic cap age =>
      simp only [Queue.apply]
      split
      · exact Relation.ReflTransGen.refl
      · exact orDefault_steps
          (f := fun t => { t with retainMaxMessages := cap, retainMaxAgeMs := age })
          (fun t _ => TopicSteps.single
            (.configure t.rateMilliPerSec t.burst cap age) trivial trivial) q

end HermesMq
