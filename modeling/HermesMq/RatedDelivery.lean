import HermesMq.Machine
import HermesMq.RateLimiter
import HermesMq.TopicSettings

/-!
# Delivery under a rate limit

Polls and subscriptions run side by side. Each reads the settings of its
topic, takes tokens, writes a poll to the log, and gives back the tokens
that the answer left unused. Between any two of these steps others take
theirs, the settings are changed, topics are deleted and made again, and the
write may fail, which keeps the tokens.

Tokens are in the bucket or with a handler. No step makes any but time and
the forgetting of a bucket, so what is handed out in a stretch of time is
bounded by the burst, the rate over the time, and what handlers had when the
stretch began (`delivery_rate_limited`).
-/

namespace HermesMq

open TokenBucket

/-! ## The handlers -/

def RateLimiter.forget (l : RateLimiter) (topic : TopicId) : RateLimiter :=
  { l with buckets := l.buckets.erase topic }

/-- What a poll and a subscription ask for. -/
structure PollCall where
  topic : TopicId
  group : GroupId
  auto : Bool
  visibilityMs : Nat
deriving DecidableEq

def PollCall.request (p : PollCall) (max tsMs : Nat) : AppRequest :=
  if p.auto then .pollAuto p.topic p.group max p.visibilityMs tsMs
  else .poll p.topic p.group max p.visibilityMs tsMs

/-- Where a handler is. -/
inductive RateTask where
  /-- It has read the settings of its topic. -/
  | rated (call : PollCall) (cfg : Option (Nat × Nat)) (want : Nat)
  /-- The limiter has granted it so many messages. -/
  | granted (call : PollCall) (cfg : Option (Nat × Nat)) (grant : Nat)
  /-- Its poll has been answered, and a part of the grant is left. -/
  | answered (topic : TopicId) (cfg : Option (Nat × Nat)) (unused : Nat)
  /-- It has deleted a topic. -/
  | deleted (topic : TopicId)
deriving DecidableEq

structure RateSystem where
  queue : Queue := {}
  limiter : RateLimiter := {}
  nowNs : Nat := 0
  tasks : List RateTask := []
  /-- The messages handed out so far. -/
  handed : TopicId → Nat := fun _ => 0

inductive RateEvent where
  | tick (ns : Nat)
  /-- A handler reads the settings of its topic. -/
  | read (call : PollCall) (want : Nat)
  | take (call : PollCall) (cfg : Option (Nat × Nat)) (want : Nat)
  /-- The poll is applied. The answer may be lost on its way back. -/
  | write (call : PollCall) (cfg : Option (Nat × Nat)) (grant tsMs : Nat) (lost : Bool)
  | fail (call : PollCall) (cfg : Option (Nat × Nat)) (grant : Nat)
  | refund (topic : TopicId) (cfg : Option (Nat × Nat)) (unused : Nat)
  /-- Any other entry of the log is applied. -/
  | request (req : AppRequest)
  | delete (topic : TopicId)
  | forget (topic : TopicId)

/-- `rate_milli as f64 / 1000.0`. -/
def ratePerSec (rateMilli : Nat) : ℚ := (rateMilli : ℚ) / 1000

theorem ratePerSec_nonneg (rateMilli : Nat) : 0 ≤ ratePerSec rateMilli :=
  div_nonneg (Nat.cast_nonneg _) (by decide)

namespace RateSystem

/-- The handler goes on, from `task` to what is in `next`. -/
def advance (s : RateSystem) (task : RateTask) (next : List RateTask) : RateSystem :=
  { s with tasks := next ++ s.tasks.erase task }

/-- A handler that gets no tokens answers its client, or waits and asks
again. -/
def take (s : RateSystem) (call : PollCall) (cfg : Option (Nat × Nat)) (want : Nat) :
    RateSystem :=
  match cfg with
  | none => s.advance (.rated call cfg want) [.granted call cfg want]
  | some (rateMilli, burst) =>
      let (limiter, grant) :=
        s.limiter.take call.topic (ratePerSec rateMilli) (max burst 1 : Nat) want s.nowNs
      let next := (grant.toOption.map (RateTask.granted call cfg)).toList
      { s.advance (.rated call cfg want) next with limiter := limiter }

def write (s : RateSystem) (call : PollCall) (cfg : Option (Nat × Nat)) (grant tsMs : Nat)
    (lost : Bool) : RateSystem :=
  match s.queue.apply (call.request grant tsMs) with
  | (queue, .polled items) =>
      let left := if lost then [] else [.answered call.topic cfg (grant - items.length)]
      { s.advance (.granted call cfg grant) left with
          queue := queue
          handed := fun τ => s.handed τ + if call.topic = τ then items.length else 0 }
  | (queue, _) => { s.advance (.granted call cfg grant) [] with queue := queue }

def refund (s : RateSystem) (topic : TopicId) (cfg : Option (Nat × Nat)) (unused : Nat) :
    RateSystem :=
  let limiter := match cfg with
    | none => s.limiter
    | some (_, burst) => s.limiter.refund topic unused (max burst 1 : Nat)
  { s.advance (.answered topic cfg unused) [] with limiter := limiter }

/-- One step; `none` when no handler is where the event says. -/
def step (s : RateSystem) : RateEvent → Option RateSystem
  | .tick ns => some { s with nowNs := s.nowNs + ns }
  | .read call want =>
      some { s with tasks := .rated call (s.queue.rateConfig call.topic) want :: s.tasks }
  | .take call cfg want =>
      if .rated call cfg want ∈ s.tasks then some (s.take call cfg want) else none
  | .write call cfg grant tsMs lost =>
      if .granted call cfg grant ∈ s.tasks then some (s.write call cfg grant tsMs lost) else none
  | .fail call cfg grant =>
      if .granted call cfg grant ∈ s.tasks then some (s.advance (.granted call cfg grant) [])
      else none
  | .refund topic cfg unused =>
      if .answered topic cfg unused ∈ s.tasks then some (s.refund topic cfg unused) else none
  | .request req => some { s with queue := (s.queue.apply req).1 }
  | .delete topic =>
      some { s with queue := (s.queue.apply (.deleteTopic topic)).1
                    tasks := .deleted topic :: s.tasks }
  | .forget topic =>
      if .deleted topic ∈ s.tasks then
        some { s.advance (.deleted topic) [] with limiter := s.limiter.forget topic }
      else none

def run (s : RateSystem) (evs : List RateEvent) : Option RateSystem := Machine.run step s evs

end RateSystem

/-! ## A poll hands out no more than it was granted -/

theorem length_leaseChosen_le (messages : OrdMap Offset Message) (d : Nat) (l : List Ranked)
    (g : GroupState) (n : LeaseId) : (leaseChosen messages d l g n).2.2.length ≤ l.length := by
  induction l generalizing g n with
  | nil => exact le_rfl
  | cons x rest ih =>
      have hitem : ((messages.get? x.2).map (deliveredItem n x.2)).toList.length ≤ 1 := by
        cases messages.get? x.2 <;> simp
      rw [leaseChosen, List.length_append, List.length_cons, Nat.add_comm]
      exact Nat.add_le_add (ih _ _) hitem

theorem Queue.length_poll_le (q : Queue) (topic : TopicId) (group : GroupId)
    (max vis tsMs : Nat) : (q.poll topic group max vis tsMs).2.length ≤ max := by
  rw [poll]
  split
  · exact Nat.zero_le _
  · simp only [pollTopic]
    split
    · exact Nat.zero_le _
    · simp only [pollGroup]
      split
      · exact Nat.zero_le _
      · refine (length_leaseChosen_le ..).trans ?_
        rw [length_choose]
        exact Nat.min_le_left ..

theorem PollCall.length_polled_le {call : PollCall} {q q' : Queue} {grant tsMs : Nat}
    {items : List Delivered} (h : q.apply (call.request grant tsMs) = (q', .polled items)) :
    items.length ≤ grant := by
  unfold request at h
  split_ifs at h
  · simp only [Queue.apply] at h
    split at h
    · cases h
    · cases h
      exact q.length_poll_le ..
  · simp only [Queue.apply] at h
    split at h
    · cases h
    · cases h
      exact q.length_poll_le ..

/-! ## Who changes the rate of a topic -/

theorem Queue.rateConfig_eq (q : Queue) (τ : TopicId) :
    q.rateConfig τ = if (q.settings τ).rateMilliPerSec > 0 then
      some ((q.settings τ).rateMilliPerSec, (q.settings τ).burst) else none := by
  rw [rateConfig, settings, topicOrDefault]
  cases q.topics.get? τ <;> rfl

/-- The request may set the rate of topic `τ`. -/
def AppRequest.Rates (τ : TopicId) : AppRequest → Prop
  | .setRateLimit topic _ _ => topic = τ
  | .deleteTopic topic => topic = τ
  | _ => False

theorem rateConfig_apply {q : Queue} {req : AppRequest} {τ : TopicId} (h : ¬req.Rates τ) :
    (q.apply req).1.rateConfig τ = q.rateConfig τ := by
  by_cases hrejected : (q.apply req).2.Rejected
  · rw [apply_rejected hrejected]
  · rw [Queue.rateConfig_eq, Queue.rateConfig_eq, Queue.apply_settings hrejected]
    cases req with
    | setRateLimit topic rate burst =>
        have hne : topic ≠ τ := h
        rw [TopicSettings.after, if_neg hne]
    | deleteTopic topic =>
        have hne : topic ≠ τ := h
        rw [TopicSettings.after, if_neg hne]
    | setRetention topic maxMessages maxAgeMs =>
        rw [TopicSettings.after]
        split_ifs <;> rfl
    | _ => rfl

/-! ## What the steps do to a bucket -/

namespace RateLimiter

variable {l l' : RateLimiter} {cfg : RateConfig} {σ τ : TopicId}

/-- No bucket owes anything, whatever the settings were. -/
def Nonneg (l : RateLimiter) : Prop := ∀ τ b, l.buckets.get? τ = some b → 0 ≤ b.tokens

theorem Nonneg.put (h : l.Nonneg) {b : Bucket} (hb : 0 ≤ b.tokens) : (l.put σ b).Nonneg := by
  intro τ b' hb'
  rw [RateLimiter.put, OrdMap.get?_insert] at hb'
  split_ifs at hb'
  · exact Option.some.inj hb' ▸ hb
  · exact h τ b' hb'

theorem Nonneg.refilled (h : l.Nonneg) {rate burst : ℚ} (hrate : 0 ≤ rate) (hburst : 0 ≤ burst)
    (nowNs : Nat) : 0 ≤ (l.refilled σ rate burst nowNs).tokens := by
  refine le_min (add_nonneg ?_ (mul_nonneg (elapsedSecs_nonneg ..) hrate)) hburst
  cases hb : l.buckets.get? σ with
  | none => exact hburst
  | some b => exact h σ b hb

theorem Nonneg.take (h : l.Nonneg) {rate burst : ℚ} (hrate : 0 ≤ rate) (hburst : 0 ≤ burst)
    (want nowNs : Nat) : (l.take σ rate burst want nowNs).1.Nonneg := by
  rcases Nat.eq_zero_or_pos want with rfl | hwant
  · exact h
  · rcases l.take_cases σ rate burst hwant nowNs with ⟨grant, -, -, hle, heq⟩ | ⟨-, heq⟩
    · rw [heq]
      exact h.put (sub_nonneg.mpr hle)
    · rw [heq]
      exact h.put (h.refilled hrate hburst nowNs)

theorem refund_cases (l : RateLimiter) (σ : TopicId) (amount : Nat) (burst : ℚ) :
    l.refund σ amount burst = l ∨ ∃ b, l.buckets.get? σ = some b ∧ l.refund σ amount burst =
      l.put σ { b with tokens := TokenBucket.refund burst amount b.tokens } := by
  unfold RateLimiter.refund
  split_ifs
  · exact Or.inl rfl
  · cases hb : l.buckets.get? σ with
    | none => exact Or.inl rfl
    | some b => exact Or.inr ⟨b, rfl, rfl⟩

theorem Nonneg.refund (h : l.Nonneg) {burst : ℚ} (hburst : 0 ≤ burst) (amount : Nat) :
    (l.refund σ amount burst).Nonneg := by
  rcases l.refund_cases σ amount burst with heq | ⟨b, hb, heq⟩
  · rwa [heq]
  · rw [heq]
    exact h.put (le_min (add_nonneg (h σ b hb) (Nat.cast_nonneg _)) hburst)

theorem Nonneg.forget (h : l.Nonneg) (σ : TopicId) : (l.forget σ).Nonneg := by
  intro τ b hb
  rw [RateLimiter.forget, OrdMap.get?_erase] at hb
  split_ifs at hb
  exact h τ b hb

theorem available_congr (h : l'.buckets.get? τ = l.buckets.get? τ) (t : Nat) :
    available cfg τ l' t = available cfg τ l t := by
  rw [available, available, refilled, refilled, h]

theorem get?_put_ne (hne : σ ≠ τ) (b : Bucket) :
    (l.put σ b).buckets.get? τ = l.buckets.get? τ :=
  OrdMap.get?_insert_ne _ _ hne.symm

theorem get?_forget_ne (hne : σ ≠ τ) : (l.forget σ).buckets.get? τ = l.buckets.get? τ := by
  rw [forget, OrdMap.get?_erase, if_neg hne.symm]

theorem available_le_burst (cfg : RateConfig) (τ : TopicId) (l : RateLimiter) (t : Nat) :
    available cfg τ l t ≤ cfg.burst :=
  refill_le_burst ..

/-- A call on another topic leaves the bucket alone. -/
theorem available_take_ne (hne : σ ≠ τ) (rate burst : ℚ) (want nowNs t : Nat) :
    available cfg τ (l.take σ rate burst want nowNs).1 t = available cfg τ l t := by
  refine available_congr ?_ t
  rcases Nat.eq_zero_or_pos want with rfl | hwant
  · rfl
  · rcases l.take_cases σ rate burst hwant nowNs with ⟨grant, -, -, -, heq⟩ | ⟨-, heq⟩
    · rw [heq]
      exact get?_put_ne hne _
    · rw [heq]
      exact get?_put_ne hne _

/-- A refund under any settings, of any topic. -/
theorem available_refund_le (burst : ℚ) (amount t : Nat) :
    available cfg τ (l.refund σ amount burst) t ≤
      available cfg τ l t + (if σ = τ then amount else 0 : Nat) := by
  rcases l.refund_cases σ amount burst with heq | ⟨b, hb, heq⟩
  · rw [heq]
    exact le_add_of_nonneg_right (Nat.cast_nonneg _)
  · rw [heq]
    split_ifs with hσ
    · subst hσ
      simp only [available, refilled, put, OrdMap.get?_insert_self, hb, Option.getD_some]
      exact refill_le_add_of_le (Nat.cast_nonneg _) (min_le_left ..)
    · rw [available_congr (get?_put_ne hσ _), Nat.cast_zero, add_zero]

end RateLimiter

/-! ## Accounts -/

/-- The tokens of topic `τ` that the handler has. -/
def RateTask.held (τ : TopicId) : RateTask → Nat
  | .granted call _ grant => if call.topic = τ then grant else 0
  | .answered topic _ unused => if topic = τ then unused else 0
  | .rated .. | .deleted _ => 0

/-- The settings as the limiter takes them. -/
def limitOf (rateMilli burst : Nat) (h : 0 < rateMilli) : RateConfig where
  rate := ratePerSec rateMilli
  burst := max burst 1
  rate_pos := div_pos (Nat.cast_pos.mpr h) (by decide)
  burst_pos := Nat.le_max_right ..

namespace RateSystem

/-- The tokens of topic `τ` that handlers have. -/
def held (s : RateSystem) (τ : TopicId) : Nat := (s.tasks.map (RateTask.held τ)).sum

/-- The handlers that are about to forget the bucket of topic `τ`. -/
def forgetting (s : RateSystem) (τ : TopicId) : Nat := s.tasks.count (.deleted τ)

variable {s s' : RateSystem} {τ : TopicId}

theorem held_advance {task : RateTask} (h : task ∈ s.tasks) (next : List RateTask) :
    (s.advance task next).held τ + task.held τ =
      (next.map (RateTask.held τ)).sum + s.held τ := by
  have herase := List.sum_map_erase (RateTask.held τ) h
  rw [held, held, advance, List.map_append, List.sum_append]
  omega

theorem forgetting_advance {task : RateTask} (h : task ≠ .deleted τ) {next : List RateTask}
    (hnext : .deleted τ ∉ next) : (s.advance task next).forgetting τ = s.forgetting τ := by
  rw [forgetting, forgetting, advance, List.count_append, List.count_eq_zero.mpr hnext,
    Nat.zero_add, List.count_erase_of_ne h.symm]

/-- What can still be handed out at once: the bucket, what handlers have, and
a burst for every bucket that will be forgotten. -/
def budget (cfg : RateConfig) (τ : TopicId) (s : RateSystem) : ℚ :=
  RateLimiter.available cfg τ s.limiter s.nowNs + s.held τ + cfg.burst * s.forgetting τ

/-- The topic has these settings, and so has every handler that has read
them. -/
structure RatedAt (τ : TopicId) (rateMilli burst : Nat) (s : RateSystem) : Prop where
  queue : s.queue.rateConfig τ = some (rateMilli, burst)
  tasks : ∀ call cfg want, .rated call cfg want ∈ s.tasks → call.topic = τ →
    cfg = some (rateMilli, burst)

theorem RatedAt.rate_pos {rateMilli burst : Nat} (h : RatedAt τ rateMilli burst s) :
    0 < rateMilli := by
  have hqueue := h.queue
  rw [Queue.rateConfig_eq] at hqueue
  split_ifs at hqueue with hpos
  cases hqueue
  exact hpos

theorem mem_advance {task x : RateTask} {next : List RateTask}
    (h : x ∈ (s.advance task next).tasks) : x ∈ next ∨ x ∈ s.tasks :=
  (List.mem_append.mp h).imp_right List.mem_of_mem_erase

end RateSystem

/-- The event may set the rate of topic `τ`. -/
def RateEvent.Rates (τ : TopicId) : RateEvent → Prop
  | .request req => req.Rates τ
  | .delete topic => topic = τ
  | _ => False

namespace RateSystem

variable {s s' : RateSystem} {τ : TopicId} {rateMilli burst : Nat}

/-- No step makes tokens; time does. -/
def Spends (cfg : RateConfig) (τ : TopicId) (s s' : RateSystem) : Prop :=
  s.nowNs ≤ s'.nowNs ∧ budget cfg τ s' + s'.handed τ ≤
    budget cfg τ s + s.handed τ + elapsedSecs s'.nowNs s.nowNs * cfg.rate

theorem Spends.refl (cfg : RateConfig) (τ : TopicId) (s : RateSystem) : Spends cfg τ s s := by
  refine ⟨le_rfl, le_add_of_nonneg_right ?_⟩
  exact mul_nonneg (RateLimiter.elapsedSecs_nonneg ..) cfg.rate_pos.le

theorem Spends.trans {cfg : RateConfig} {s₁ s₂ s₃ : RateSystem} (h : Spends cfg τ s₁ s₂)
    (h' : Spends cfg τ s₂ s₃) : Spends cfg τ s₁ s₃ := by
  refine ⟨h.1.trans h'.1, ?_⟩
  have htime := RateLimiter.elapsedSecs_add h.1 h'.1
  rw [← htime, add_mul]
  linarith [h.2, h'.2]

/-- A step at one time that spends no more than it frees. -/
theorem spends_of_le {cfg : RateConfig} (hnow : s'.nowNs = s.nowNs)
    (h : RateLimiter.available cfg τ s'.limiter s.nowNs + s'.held τ + s'.handed τ +
        cfg.burst * s'.forgetting τ ≤
      RateLimiter.available cfg τ s.limiter s.nowNs + s.held τ + s.handed τ +
        cfg.burst * s.forgetting τ) : Spends cfg τ s s' := by
  refine ⟨hnow.ge, ?_⟩
  have htime : 0 ≤ elapsedSecs s'.nowNs s.nowNs * cfg.rate :=
    mul_nonneg (RateLimiter.elapsedSecs_nonneg ..) cfg.rate_pos.le
  rw [budget, budget, hnow] at *
  linarith

/-- A handler goes on; its tokens go where `next` and the limiter say. -/
theorem spends_advance {cfg : RateConfig} {task : RateTask} {next : List RateTask}
    (htask : task ∈ s.tasks) (hne : task ≠ .deleted τ) (hnext : .deleted τ ∉ next)
    (hnow : s'.nowNs = s.nowNs) (htasks : s'.tasks = (s.advance task next).tasks)
    (h : RateLimiter.available cfg τ s'.limiter s.nowNs + (next.map (RateTask.held τ)).sum +
        s'.handed τ ≤
      RateLimiter.available cfg τ s.limiter s.nowNs + task.held τ + s.handed τ) :
    Spends cfg τ s s' := by
  have hheld : s'.held τ + task.held τ = (next.map (RateTask.held τ)).sum + s.held τ := by
    rw [held, htasks]
    exact held_advance htask next
  have hforget : s'.forgetting τ = s.forgetting τ := by
    rw [forgetting, htasks]
    exact forgetting_advance hne hnext
  have hcast : (s'.held τ : ℚ) + task.held τ = (next.map (RateTask.held τ)).sum + s.held τ := by
    exact_mod_cast hheld
  refine spends_of_le hnow ?_
  rw [hforget]
  linarith

/-- A handler goes on without the limiter. -/
theorem spends_handed {cfg : RateConfig} {task : RateTask} {next : List RateTask}
    (htask : task ∈ s.tasks) (hne : task ≠ .deleted τ) (hnext : .deleted τ ∉ next)
    (hnow : s'.nowNs = s.nowNs) (htasks : s'.tasks = (s.advance task next).tasks)
    (hlimiter : s'.limiter = s.limiter)
    (h : (next.map (RateTask.held τ)).sum + s'.handed τ ≤ task.held τ + s.handed τ) :
    Spends cfg τ s s' := by
  refine spends_advance htask hne hnext hnow htasks ?_
  have hcast : ((next.map (RateTask.held τ)).sum : ℚ) + s'.handed τ ≤
      task.held τ + s.handed τ := by
    exact_mod_cast h
  rw [hlimiter]
  linarith

/-- A step that no bucket and no handler's tokens see. -/
theorem spends_idle {cfg : RateConfig} (hnow : s'.nowNs = s.nowNs)
    (hlimiter : s'.limiter = s.limiter) (hheld : s'.held τ = s.held τ)
    (hforget : s'.forgetting τ = s.forgetting τ) (hhanded : s'.handed τ = s.handed τ) :
    Spends cfg τ s s' := by
  refine spends_of_le hnow (le_of_eq ?_)
  rw [hlimiter, hheld, hforget, hhanded]

/-- A poll is not a request that sets a rate. -/
theorem not_rates_request (call : PollCall) (max tsMs : Nat) :
    ¬(call.request max tsMs).Rates τ := by
  unfold PollCall.request
  split_ifs <;> exact id

/-- The tokens that a handler has after it asked for some. -/
theorem held_granted (grant : Except Nat Nat) (call : PollCall) (cfg : Option (Nat × Nat)) :
    (((grant.toOption.map (RateTask.granted call cfg)).toList).map (RateTask.held τ)).sum =
      if call.topic = τ then grant.toOption.getD 0 else 0 := by
  cases grant with
  | error retryMs => exact (ite_self 0).symm
  | ok grant => rfl

namespace RatedAt

theorem of_advance (h : RatedAt τ rateMilli burst s) {task : RateTask} {next : List RateTask}
    (hqueue : s'.queue.rateConfig τ = s.queue.rateConfig τ)
    (htasks : s'.tasks = (s.advance task next).tasks)
    (hnext : ∀ call cfg want, .rated call cfg want ∉ next) :
    RatedAt τ rateMilli burst s' where
  queue := hqueue.trans h.queue
  tasks call cfg want hmem := by
    rcases mem_advance (htasks ▸ hmem) with hmem | hmem
    · exact absurd hmem (hnext call cfg want)
    · exact h.tasks call cfg want hmem

variable (h : RatedAt τ rateMilli burst s)
include h

theorem take {call : PollCall} {cfg : Option (Nat × Nat)} {want : Nat}
    (htask : .rated call cfg want ∈ s.tasks) :
    RatedAt τ rateMilli burst (s.take call cfg want) ∧
      Spends (limitOf rateMilli burst h.rate_pos) τ s (s.take call cfg want) := by
  cases cfg with
  | none =>
      have hne : call.topic ≠ τ := fun hτ => by cases h.tasks call none want htask hτ
      refine ⟨h.of_advance rfl rfl (by simp),
        spends_handed htask (by simp) (by simp) rfl rfl rfl ?_⟩
      simp [RateTask.held, hne, RateSystem.take, advance]
  | some p =>
      obtain ⟨r, b⟩ := p
      refine ⟨h.of_advance rfl rfl (by simp),
        spends_advance htask (by simp) (by simp) rfl rfl ?_⟩
      by_cases hτ : call.topic = τ
      · obtain ⟨rfl, rfl⟩ := Prod.mk.inj (Option.some.inj (h.tasks call _ want htask hτ))
        subst hτ
        have htake : RateLimiter.available (limitOf r b h.rate_pos) call.topic
            (s.take call (some (r, b)) want).limiter s.nowNs +
            ((s.limiter.take call.topic (ratePerSec r) (max b 1 : Nat) want
              s.nowNs).2.toOption.getD 0 : Nat) ≤
            RateLimiter.available (limitOf r b h.rate_pos) call.topic s.limiter s.nowNs :=
          RateLimiter.available_take (limitOf r b h.rate_pos) call.topic s.limiter want s.nowNs
        rw [held_granted, if_pos rfl]
        simp only [RateTask.held, Nat.cast_zero, add_zero]
        exact add_le_add_left htake _
      · have havailable : RateLimiter.available (limitOf rateMilli burst h.rate_pos) τ
            (s.take call (some (r, b)) want).limiter s.nowNs =
            RateLimiter.available (limitOf rateMilli burst h.rate_pos) τ s.limiter s.nowNs :=
          RateLimiter.available_take_ne hτ (ratePerSec r) (max b 1 : Nat) want s.nowNs s.nowNs
        rw [held_granted, if_neg hτ, havailable]
        exact le_rfl

/-- A handler ends with tokens that nobody gets back. -/
theorem drop {call : PollCall} {cfg : Option (Nat × Nat)} {grant : Nat} {queue : Queue}
    (htask : .granted call cfg grant ∈ s.tasks)
    (hqueue : queue.rateConfig τ = s.queue.rateConfig τ) :
    RatedAt τ rateMilli burst { s.advance (.granted call cfg grant) [] with queue := queue } ∧
      Spends (limitOf rateMilli burst h.rate_pos) τ s
        { s.advance (.granted call cfg grant) [] with queue := queue } := by
  refine ⟨h.of_advance hqueue rfl (by simp),
    spends_handed htask (by simp) (by simp) rfl rfl rfl ?_⟩
  exact Nat.add_le_add_right (Nat.zero_le _) _

theorem write {call : PollCall} {cfg : Option (Nat × Nat)} {grant tsMs : Nat} {lost : Bool}
    (htask : .granted call cfg grant ∈ s.tasks) :
    RatedAt τ rateMilli burst (s.write call cfg grant tsMs lost) ∧
      Spends (limitOf rateMilli burst h.rate_pos) τ s (s.write call cfg grant tsMs lost) := by
  have hrate := rateConfig_apply (q := s.queue) (not_rates_request (τ := τ) call grant tsMs)
  unfold RateSystem.write
  cases hq : s.queue.apply (call.request grant tsMs) with
  | mk queue response =>
    rw [hq] at hrate
    cases response with
    | polled items =>
        have hle := PollCall.length_polled_le hq
        refine ⟨h.of_advance hrate rfl (by cases lost <;> simp),
          spends_handed htask (by simp) (by cases lost <;> simp) rfl rfl rfl ?_⟩
        cases lost <;> by_cases hτ : call.topic = τ <;> simp [RateTask.held, hτ] <;> omega
    | _ => exact h.drop htask hrate

theorem refund {topic : TopicId} {cfg : Option (Nat × Nat)} {unused : Nat}
    (htask : .answered topic cfg unused ∈ s.tasks) :
    RatedAt τ rateMilli burst (s.refund topic cfg unused) ∧
      Spends (limitOf rateMilli burst h.rate_pos) τ s (s.refund topic cfg unused) := by
  refine ⟨h.of_advance rfl rfl (by simp), spends_advance htask (by simp) (by simp) rfl rfl ?_⟩
  have hback : RateLimiter.available (limitOf rateMilli burst h.rate_pos) τ
      (s.refund topic cfg unused).limiter s.nowNs ≤
      RateLimiter.available (limitOf rateMilli burst h.rate_pos) τ s.limiter s.nowNs +
        (RateTask.answered topic cfg unused).held τ := by
    cases cfg with
    | none => exact le_add_of_nonneg_right (Nat.cast_nonneg _)
    | some p => exact RateLimiter.available_refund_le _ unused s.nowNs
  rw [List.map_nil, List.sum_nil, Nat.cast_zero, add_zero]
  exact add_le_add_left hback _

theorem forget {topic : TopicId} (hlimiter : s.limiter.Nonneg)
    (htask : .deleted topic ∈ s.tasks) :
    RatedAt τ rateMilli burst
        { s.advance (.deleted topic) [] with limiter := s.limiter.forget topic } ∧
      Spends (limitOf rateMilli burst h.rate_pos) τ s
        { s.advance (.deleted topic) [] with limiter := s.limiter.forget topic } := by
  refine ⟨h.of_advance rfl rfl (by simp), ?_⟩
  by_cases hτ : topic = τ
  · -- A bucket that is forgotten is full again, which the handler has paid for.
    subst hτ
    set cfg := limitOf rateMilli burst h.rate_pos
    have hheld : (s.advance (.deleted topic) []).held topic = s.held topic :=
      (held_advance htask []).trans (Nat.zero_add _)
    have hforget : (s.advance (.deleted topic) []).forgetting topic + 1 = s.forgetting topic := by
      have hpos := List.count_pos_iff.mpr htask
      rw [forgetting, forgetting, advance, List.nil_append, List.count_erase_self]
      omega
    have hfull : RateLimiter.available cfg topic (s.limiter.forget topic) s.nowNs ≤ cfg.burst :=
      RateLimiter.available_le_burst ..
    have hnonneg : 0 ≤ RateLimiter.available cfg topic s.limiter s.nowNs :=
      hlimiter.refilled cfg.rate_pos.le (Nat.cast_nonneg _) s.nowNs
    refine spends_of_le rfl ?_
    show RateLimiter.available cfg topic (s.limiter.forget topic) s.nowNs +
      (s.advance (.deleted topic) []).held topic + s.handed topic +
      cfg.burst * (s.advance (.deleted topic) []).forgetting topic ≤ _
    rw [hheld, ← hforget, Nat.cast_add, Nat.cast_one]
    linarith
  · refine spends_advance htask (by simpa using hτ) (by simp) rfl rfl (le_of_eq ?_)
    rw [RateLimiter.available_congr (RateLimiter.get?_forget_ne hτ)]
    rfl

theorem step {e : RateEvent} (hlimiter : s.limiter.Nonneg) (hevent : ¬e.Rates τ)
    (hstep : s.step e = some s') :
    RatedAt τ rateMilli burst s' ∧ Spends (limitOf rateMilli burst h.rate_pos) τ s s' := by
  cases e with
  | tick ns =>
      cases hstep
      refine ⟨⟨h.queue, h.tasks⟩, Nat.le_add_right .., ?_⟩
      have hrefill := RateLimiter.available_le_add (limitOf rateMilli burst h.rate_pos) τ
        s.limiter (Nat.le_add_right s.nowNs ns)
      rw [budget, budget]
      simp only [held, forgetting]
      linarith
  | read call want =>
      cases hstep
      refine ⟨⟨h.queue, ?_⟩, spends_idle rfl rfl (Nat.zero_add _) ?_ rfl⟩
      · intro call' cfg want' hmem hτ
        rcases List.mem_cons.mp hmem with heq | hmem
        · cases heq
          rw [hτ, h.queue]
        · exact h.tasks call' cfg want' hmem hτ
      · exact List.count_cons_of_ne (by simp)
  | take call cfg want =>
      obtain ⟨htask, hs'⟩ := Option.ite_none_right_eq_some.mp hstep
      cases hs'
      exact h.take htask
  | write call cfg grant tsMs lost =>
      obtain ⟨htask, hs'⟩ := Option.ite_none_right_eq_some.mp hstep
      cases hs'
      exact h.write htask
  | fail call cfg grant =>
      obtain ⟨htask, hs'⟩ := Option.ite_none_right_eq_some.mp hstep
      cases hs'
      exact h.drop htask rfl
  | refund topic cfg unused =>
      obtain ⟨htask, hs'⟩ := Option.ite_none_right_eq_some.mp hstep
      cases hs'
      exact h.refund htask
  | request req =>
      cases hstep
      exact ⟨⟨(rateConfig_apply hevent).trans h.queue, h.tasks⟩,
        spends_idle rfl rfl rfl rfl rfl⟩
  | delete topic =>
      cases hstep
      have hne : topic ≠ τ := hevent
      have hrate : (s.queue.apply (.deleteTopic topic)).1.rateConfig τ = s.queue.rateConfig τ :=
        rateConfig_apply hne
      refine ⟨⟨hrate.trans h.queue, ?_⟩,
        spends_idle rfl rfl (Nat.zero_add _) ?_ rfl⟩
      · intro call cfg want hmem
        exact h.tasks call cfg want (List.mem_of_ne_of_mem RateTask.noConfusion hmem)
      · exact List.count_cons_of_ne (by simpa using hne)
  | forget topic =>
      obtain ⟨htask, hs'⟩ := Option.ite_none_right_eq_some.mp hstep
      cases hs'
      exact h.forget hlimiter htask

end RatedAt

theorem nonneg_step {e : RateEvent} (h : s.limiter.Nonneg) (hstep : s.step e = some s') :
    s'.limiter.Nonneg := by
  cases e with
  | tick | read | request | delete =>
      cases hstep
      exact h
  | take call cfg want =>
      obtain ⟨-, hs'⟩ := Option.ite_none_right_eq_some.mp hstep
      cases hs'
      cases cfg with
      | none => exact h
      | some p => exact h.take (ratePerSec_nonneg _) (Nat.cast_nonneg _) want s.nowNs
  | write call cfg grant tsMs lost =>
      obtain ⟨-, hs'⟩ := Option.ite_none_right_eq_some.mp hstep
      cases hs'
      unfold RateSystem.write
      split <;> exact h
  | fail =>
      obtain ⟨-, hs'⟩ := Option.ite_none_right_eq_some.mp hstep
      cases hs'
      exact h
  | refund topic cfg unused =>
      obtain ⟨-, hs'⟩ := Option.ite_none_right_eq_some.mp hstep
      cases hs'
      cases cfg with
      | none => exact h
      | some p => exact h.refund (Nat.cast_nonneg _) unused
  | forget topic =>
      obtain ⟨-, hs'⟩ := Option.ite_none_right_eq_some.mp hstep
      cases hs'
      exact h.forget topic

theorem run_nonneg {evs : List RateEvent} (h : run {} evs = some s) : s.limiter.Nonneg :=
  Machine.run_keeps (P := fun s => s.limiter.Nonneg) (fun _ _ _ => nonneg_step)
    (fun _ _ hb => by cases hb) h

theorem budget_nonneg {cfg : RateConfig} (h : s.limiter.Nonneg) : 0 ≤ budget cfg τ s :=
  add_nonneg (add_nonneg (h.refilled cfg.rate_pos.le (Nat.cast_nonneg _) s.nowNs)
    (Nat.cast_nonneg _)) (mul_nonneg (Nat.cast_nonneg _) (Nat.cast_nonneg _))

/-- Over a stretch in which nobody sets the rate. -/
theorem RatedAt.run {window : List RateEvent} (h : RatedAt τ rateMilli burst s)
    (hlimiter : s.limiter.Nonneg) (hkeep : ∀ e ∈ window, ¬e.Rates τ)
    (hrun : s.run window = some s') :
    s'.limiter.Nonneg ∧ Spends (limitOf rateMilli burst h.rate_pos) τ s s' := by
  have hinv := Machine.run_invariant
    (P := fun t => t.limiter.Nonneg ∧ RatedAt τ rateMilli burst t ∧
      Spends (limitOf rateMilli burst h.rate_pos) τ s t)
    (Q := fun _ e _ => ¬e.Rates τ)
    (fun t e t' ht hstep hevent =>
      have hnext := ht.2.1.step ht.1 hevent hstep
      ⟨nonneg_step ht.1 hstep, hnext.1, ht.2.2.trans hnext.2⟩)
    ⟨hlimiter, h, Spends.refl ..⟩
    (Machine.along_of_forall fun _ e _ hmem _ => hkeep e hmem) hrun
  exact ⟨hinv.1, hinv.2.2⟩

end RateSystem

open RateSystem in
/-- However the poll handlers, the log and the clock interleave, a topic hands
out no more than one burst, a burst for every delete whose `forget` is still to
come, the tokens that handlers already had, and what its rate gives over the
time that passed. -/
theorem delivery_rate_limited {pre window : List RateEvent} {s s' : RateSystem} {τ : TopicId}
    {rateMilli burst : Nat} (hpre : RateSystem.run {} pre = some s)
    (hrated : RatedAt τ rateMilli burst s) (hkeep : ∀ e ∈ window, ¬e.Rates τ)
    (hrun : s.run window = some s') :
    (s'.handed τ : ℚ) ≤ s.handed τ + s.held τ + (1 + s.forgetting τ) * (max burst 1 : Nat) +
      ratePerSec rateMilli * elapsedSecs s'.nowNs s.nowNs := by
  obtain ⟨hlimiter, hspends⟩ := hrated.run (run_nonneg hpre) hkeep hrun
  set cfg := limitOf rateMilli burst hrated.rate_pos
  have hleft : 0 ≤ budget cfg τ s' := budget_nonneg hlimiter
  have hfull : RateLimiter.available cfg τ s.limiter s.nowNs ≤ (max burst 1 : Nat) :=
    RateLimiter.available_le_burst ..
  have hbudget : budget cfg τ s ≤ s.held τ + (1 + s.forgetting τ) * (max burst 1 : Nat) := by
    have heq : budget cfg τ s = RateLimiter.available cfg τ s.limiter s.nowNs + s.held τ +
      (max burst 1 : Nat) * s.forgetting τ := rfl
    rw [heq]
    linarith
  have hpaid : budget cfg τ s' + s'.handed τ ≤ budget cfg τ s + s.handed τ +
    elapsedSecs s'.nowNs s.nowNs * ratePerSec rateMilli := hspends.2
  linarith

def ratedCall : PollCall := ⟨"t", "g", true, 1000⟩

/-- Three messages on a topic of one message a second, and two polls about to
ask for tokens. -/
def ratedSetup : List RateEvent :=
  let message seq : RateEvent := .request (.produce "t" .default .text [] "" seq 0)
  [.request (.createTopic "t"), .request (.setRateLimit "t" 1000 1), message 1, message 2,
    message 3, .read ratedCall 5, .read ratedCall 5]

/-- Both polls want everything; one waits a second. -/
def ratedWindow : List RateEvent :=
  let cfg := some (1000, 1)
  [.take ratedCall cfg 5, .write ratedCall cfg 1 0 false, .tick nsPerSec, .take ratedCall cfg 5,
    .refund "t" cfg 0, .write ratedCall cfg 1 1000 false]

theorem delivery_rate_limited_reached :
    ∃ s s', RateSystem.run {} ratedSetup = some s ∧ s.run ratedWindow = some s' ∧
      s'.handed "t" = 2 ∧ (s'.handed "t" : ℚ) ≤ s.handed "t" + s.held "t" +
        (1 + s.forgetting "t") * (max 1 1 : Nat) +
        ratePerSec 1000 * elapsedSecs s'.nowNs s.nowNs := by
  have hsetup : (RateSystem.run {} ratedSetup).map
      (fun s => (s.queue.rateConfig "t", s.tasks, (s.run ratedWindow).map (·.handed "t"))) =
      some (some (1000, 1), [.rated ratedCall (some (1000, 1)) 5,
        .rated ratedCall (some (1000, 1)) 5], some 2) := by
    decide +kernel
  obtain ⟨s, hpre, hs⟩ := Option.map_eq_some_iff.mp hsetup
  simp only [Prod.mk.injEq] at hs
  obtain ⟨hqueue, htasks, hwindow⟩ := hs
  obtain ⟨s', hrun, hhanded⟩ := Option.map_eq_some_iff.mp hwindow
  refine ⟨s, s', hpre, hrun, hhanded, delivery_rate_limited hpre ⟨hqueue, ?_⟩ ?_ hrun⟩
  · intro call cfg want hmem _
    rw [htasks] at hmem
    simp only [List.mem_cons, List.not_mem_nil, or_false, RateTask.rated.injEq] at hmem
    rcases hmem with ⟨-, hcfg, -⟩ | ⟨-, hcfg, -⟩ <;> exact hcfg
  · intro e he
    simp only [ratedWindow, List.mem_cons, List.not_mem_nil, or_false] at he
    rcases he with rfl | rfl | rfl | rfl | rfl | rfl <;> exact id

end HermesMq
