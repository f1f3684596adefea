import HermesMq.PollResponse
import HermesMq.TokenBucket
import Mathlib.Data.Rat.Floor

/-!
# The rate limiter

Token buckets per topic, with exact rationals in place of floats and
clock readings in nanoseconds. What a bucket can give at a time is what it
holds once refilled (`available`): time adds at most the rate, a refund at
most its amount, and a grant takes itself off. So over any stretch of calls
no more is granted than a burst, the refunds and the rate over the time
(`stretch_le`).

The retry hint is a number of milliseconds in a `u64`. At rates below
`1000 / u64Max` per second the wait for one token does not fit, and the
hint is too short.
-/

namespace HermesMq

open TokenBucket

def u32Max : Nat := 2 ^ 32 - 1

def nsPerSec : Nat := 10 ^ 9

def nsPerMs : Nat := 10 ^ 6

structure Bucket where
  tokens : ℚ
  last : Nat

structure RateLimiter where
  buckets : OrdMap TopicId Bucket := ∅

/-- The time between two clock readings in seconds, none if they are the
wrong way round. -/
def elapsedSecs (nowNs lastNs : Nat) : ℚ := ((nowNs - lastNs : Nat) : ℚ) / (nsPerSec : ℚ)

namespace RateLimiter

def put (l : RateLimiter) (topic : TopicId) (bucket : Bucket) : RateLimiter :=
  { l with buckets := l.buckets.insert topic bucket }

/-- The bucket of the topic, a full one if there is none, refilled. -/
def refilled (l : RateLimiter) (topic : TopicId) (ratePerSec burst : ℚ) (nowNs : Nat) : Bucket :=
  let bucket := (l.buckets.get? topic).getD ⟨burst, nowNs⟩
  ⟨refill ratePerSec burst (elapsedSecs nowNs bucket.last) bucket.tokens, nowNs⟩

def retryMs (ratePerSec needed : ℚ) : Nat :=
  if ratePerSec > 0 then min ⌈needed / ratePerSec * 1000⌉₊ u64Max else 1000

/-- Asking for nothing is granted, not rate limited. -/
def take (l : RateLimiter) (topic : TopicId) (ratePerSec burst : ℚ) (want nowNs : Nat) :
    RateLimiter × Except Nat Nat :=
  if want = 0 then (l, .ok 0)
  else
    let bucket := l.refilled topic ratePerSec burst nowNs
    let grant := min (min ⌊bucket.tokens⌋₊ u32Max) want
    if grant = 0 then
      (l.put topic bucket, .error (retryMs ratePerSec (1 - bucket.tokens)))
    else (l.put topic { bucket with tokens := bucket.tokens - grant }, .ok grant)

def refund (l : RateLimiter) (topic : TopicId) (amount : Nat) (burst : ℚ) : RateLimiter :=
  if amount = 0 then l
  else
    match l.buckets.get? topic with
    | none => l
    | some bucket =>
        l.put topic { bucket with tokens := TokenBucket.refund burst amount bucket.tokens }

/-- The answer depends on the whole tokens only. -/
theorem take_snd (l : RateLimiter) (topic : TopicId) (ratePerSec burst : ℚ) (want nowNs : Nat) :
    (l.take topic ratePerSec burst want nowNs).2 =
      takeTokens (min ⌊(l.refilled topic ratePerSec burst nowNs).tokens⌋₊ u32Max)
        (retryMs ratePerSec (1 - (l.refilled topic ratePerSec burst nowNs).tokens)) want := by
  by_cases hwant : want = 0
  · simp only [take, takeTokens, if_pos hwant]
  · by_cases hgrant :
        min (min ⌊(l.refilled topic ratePerSec burst nowNs).tokens⌋₊ u32Max) want = 0
    · simp only [take, takeTokens, if_neg hwant, if_pos hgrant]
    · simp only [take, takeTokens, if_neg hwant, if_neg hgrant]

/-- A `take` of something grants whole tokens the bucket has, or the bucket
has less than one. -/
theorem take_cases (l : RateLimiter) (topic : TopicId) (ratePerSec burst : ℚ) {want : Nat}
    (hwant : 1 ≤ want) (nowNs : Nat) :
    let bucket := l.refilled topic ratePerSec burst nowNs
    (∃ grant : Nat, 1 ≤ grant ∧ grant ≤ want ∧ (grant : ℚ) ≤ bucket.tokens ∧
      l.take topic ratePerSec burst want nowNs =
        (l.put topic { bucket with tokens := bucket.tokens - grant }, .ok grant)) ∨
    (bucket.tokens < 1 ∧ l.take topic ratePerSec burst want nowNs =
      (l.put topic bucket, .error (retryMs ratePerSec (1 - bucket.tokens)))) := by
  intro bucket
  have hne : want ≠ 0 := Nat.one_le_iff_ne_zero.mp hwant
  by_cases hone : bucket.tokens < 1
  · have hfloor : ⌊bucket.tokens⌋₊ = 0 := Nat.floor_eq_zero.mpr hone
    refine Or.inr ⟨hone, ?_⟩
    simp [take, hne, bucket, hfloor]
  · have hfloor : 1 ≤ ⌊bucket.tokens⌋₊ := Nat.one_le_floor_iff _ |>.mpr (not_lt.mp hone)
    have hgrant : 1 ≤ min (min ⌊bucket.tokens⌋₊ u32Max) want :=
      le_min (le_min hfloor (by decide)) hwant
    refine Or.inl ⟨_, hgrant, Nat.min_le_right .., ?_, ?_⟩
    · have hle : min (min ⌊bucket.tokens⌋₊ u32Max) want ≤ ⌊bucket.tokens⌋₊ :=
        (Nat.min_le_left ..).trans (Nat.min_le_left ..)
      exact (Nat.cast_le.mpr hle).trans
        (Nat.floor_le (zero_le_one.trans (not_lt.mp hone)))
    · rw [take, if_neg hne, if_neg (Nat.one_le_iff_ne_zero.mp hgrant)]

end RateLimiter

/-! ## Calls on one topic -/

/-- A positive rate and a burst of at least one. -/
structure RateConfig where
  rate : ℚ
  burst : Nat
  rate_pos : 0 < rate
  burst_pos : 1 ≤ burst

inductive LimiterCall where
  | take (want nowNs : Nat)
  | refund (amount nowNs : Nat)
deriving DecidableEq

namespace LimiterCall

def nowNs : LimiterCall → Nat
  | take _ nowNs | refund _ nowNs => nowNs

/-- The tokens a call gives back. -/
def refunded : LimiterCall → Nat
  | take .. => 0
  | refund amount _ => amount

def apply (cfg : RateConfig) (topic : TopicId) (l : RateLimiter) : LimiterCall → RateLimiter
  | take want nowNs => (l.take topic cfg.rate cfg.burst want nowNs).1
  | refund amount _ => l.refund topic amount cfg.burst

/-- The tokens a call grants. -/
def granted (cfg : RateConfig) (topic : TopicId) (l : RateLimiter) : LimiterCall → Nat
  | take want nowNs => (l.take topic cfg.rate cfg.burst want nowNs).2.toOption.getD 0
  | refund .. => 0

end LimiterCall

namespace RateLimiter

variable (cfg : RateConfig) (topic : TopicId)

def run (l : RateLimiter) (calls : List LimiterCall) : RateLimiter :=
  calls.foldl (LimiterCall.apply cfg topic) l

/-- The tokens granted over a list of calls. -/
def totalGranted (l : RateLimiter) : List LimiterCall → Nat
  | [] => 0
  | c :: rest => c.granted cfg topic l + totalGranted (c.apply cfg topic l) rest

def totalRefunded (calls : List LimiterCall) : Nat := (calls.map LimiterCall.refunded).sum

/-! ## Bounds -/

/-- The bucket of the topic holds between nothing and a burst. -/
def Within (l : RateLimiter) : Prop :=
  ∀ b, l.buckets.get? topic = some b → 0 ≤ b.tokens ∧ b.tokens ≤ cfg.burst

variable {cfg topic} {l : RateLimiter}

theorem elapsedSecs_nonneg (nowNs lastNs : Nat) : 0 ≤ elapsedSecs nowNs lastNs :=
  div_nonneg (Nat.cast_nonneg _) (Nat.cast_nonneg _)

theorem within_put {b : Bucket} (h : 0 ≤ b.tokens ∧ b.tokens ≤ cfg.burst) :
    Within cfg topic (l.put topic b) := by
  intro b' hb'
  rw [put, OrdMap.get?_insert_self] at hb'
  exact Option.some.inj hb' ▸ h

theorem Within.refilled (h : Within cfg topic l) (nowNs : Nat) :
    0 ≤ (l.refilled topic cfg.rate cfg.burst nowNs).tokens ∧
      (l.refilled topic cfg.rate cfg.burst nowNs).tokens ≤ cfg.burst := by
  have hburst : (0 : ℚ) ≤ cfg.burst := Nat.cast_nonneg _
  have hold : 0 ≤ ((l.buckets.get? topic).getD ⟨cfg.burst, nowNs⟩).tokens ∧
      ((l.buckets.get? topic).getD ⟨cfg.burst, nowNs⟩).tokens ≤ cfg.burst := by
    cases hb : l.buckets.get? topic with
    | none => exact ⟨hburst, le_rfl⟩
    | some b => exact h b hb
  exact ⟨hold.1.trans (le_refill cfg.rate_pos.le (elapsedSecs_nonneg ..) hold.2),
    refill_le_burst⟩

theorem Within.apply (h : Within cfg topic l) (c : LimiterCall) :
    Within cfg topic (c.apply cfg topic l) := by
  cases c with
  | take want nowNs =>
      rw [LimiterCall.apply]
      rcases Nat.eq_zero_or_pos want with rfl | hwant
      · exact h
      · have hfull := h.refilled nowNs
        rcases l.take_cases topic cfg.rate cfg.burst hwant nowNs with
          ⟨grant, -, -, hle, heq⟩ | ⟨-, heq⟩
        · rw [heq]
          exact within_put ⟨sub_nonneg.mpr hle,
            (sub_le_self _ (Nat.cast_nonneg grant)).trans hfull.2⟩
        · rw [heq]
          exact within_put hfull
  | refund amount nowNs =>
      rw [LimiterCall.apply, refund]
      split_ifs
      · exact h
      · cases hb : l.buckets.get? topic with
        | none => exact h
        | some b =>
            have hb' := h b hb
            exact within_put ⟨hb'.1.trans (le_refund (Nat.cast_nonneg _) hb'.2), refund_le_burst⟩

theorem run_within (calls : List LimiterCall) : Within cfg topic (run cfg topic {} calls) :=
  List.foldlRecOn calls _ (fun _ h => by cases h) fun _ h c _ => h.apply c

/-! ## Conservation -/

/-- What the bucket can give at a time. -/
def available (cfg : RateConfig) (topic : TopicId) (l : RateLimiter) (nowNs : Nat) : ℚ :=
  (l.refilled topic cfg.rate cfg.burst nowNs).tokens

/-- Time adds at most the rate. -/
theorem available_le_add (cfg : RateConfig) (topic : TopicId) (l : RateLimiter) {t t' : Nat}
    (h : t ≤ t') :
    available cfg topic l t' ≤ available cfg topic l t + elapsedSecs t' t * cfg.rate := by
  have hlater : ∀ last, elapsedSecs t' last ≤ elapsedSecs t last + elapsedSecs t' t := by
    intro last
    rw [elapsedSecs, elapsedSecs, elapsedSecs, ← add_div, ← Nat.cast_add]
    exact div_le_div_of_nonneg_right (Nat.cast_le.mpr (by omega)) (Nat.cast_nonneg _)
  rw [available, available, refilled, refilled]
  cases l.buckets.get? topic with
  | none =>
      refine refill_le_add cfg.rate_pos.le (elapsedSecs_nonneg ..) ?_
      have hzero : elapsedSecs t' t' = 0 := by simp [elapsedSecs]
      exact hzero.trans_le (add_nonneg (elapsedSecs_nonneg ..) (elapsedSecs_nonneg ..))
  | some b => exact refill_le_add cfg.rate_pos.le (elapsedSecs_nonneg ..) (hlater b.last)

theorem available_put_now (cfg : RateConfig) (topic : TopicId) (l : RateLimiter) (b : Bucket) :
    available cfg topic (l.put topic b) b.last ≤ b.tokens := by
  have hzero : elapsedSecs b.last b.last = 0 := by simp [elapsedSecs]
  simp only [available, refilled, put, OrdMap.get?_insert_self, Option.getD_some, hzero]
  exact refill_zero_le

/-- A `take` takes off what it grants. -/
theorem available_take (cfg : RateConfig) (topic : TopicId) (l : RateLimiter)
    (want nowNs : Nat) :
    available cfg topic ((LimiterCall.take want nowNs).apply cfg topic l) nowNs +
      (LimiterCall.take want nowNs).granted cfg topic l ≤ available cfg topic l nowNs := by
  rw [LimiterCall.apply, LimiterCall.granted]
  rcases Nat.eq_zero_or_pos want with rfl | hwant
  · simp [take, Except.toOption]
  · rcases l.take_cases topic cfg.rate cfg.burst hwant nowNs with
      ⟨grant, -, -, -, heq⟩ | ⟨-, heq⟩
    · have hput := available_put_now cfg topic l
        { l.refilled topic cfg.rate cfg.burst nowNs with
          tokens := (l.refilled topic cfg.rate cfg.burst nowNs).tokens - grant }
      rw [heq]
      exact le_sub_iff_add_le.mp hput
    · have hput := available_put_now cfg topic l
        (l.refilled topic cfg.rate cfg.burst nowNs)
      rw [heq]
      simp only [Except.toOption, Option.getD_none, Nat.cast_zero, add_zero]
      exact hput

/-- A refund adds at most its amount. -/
theorem available_refund (cfg : RateConfig) (topic : TopicId) (l : RateLimiter)
    (amount t nowNs : Nat) :
    available cfg topic ((LimiterCall.refund amount nowNs).apply cfg topic l) t ≤
      available cfg topic l t + amount := by
  have hamount : (0 : ℚ) ≤ amount := Nat.cast_nonneg _
  rw [LimiterCall.apply, refund]
  split_ifs
  · exact le_add_of_nonneg_right hamount
  · cases hb : l.buckets.get? topic with
    | none => exact le_add_of_nonneg_right hamount
    | some b =>
        simp only [available, refilled, put, OrdMap.get?_insert_self, hb, Option.getD_some]
        exact refill_refund_le hamount

theorem elapsedSecs_add {t₀ t t₁ : Nat} (h₀ : t₀ ≤ t) (h₁ : t ≤ t₁) :
    elapsedSecs t t₀ + elapsedSecs t₁ t = elapsedSecs t₁ t₀ := by
  rw [elapsedSecs, elapsedSecs, elapsedSecs, ← add_div, ← Nat.cast_add]
  congr 2
  omega

/-- Over a stretch of calls no more is granted than what the bucket can give
at its start, the refunds, and the rate over its time. -/
theorem stretch_le (h : Within cfg topic l) {calls : List LimiterCall}
    (hclock : (calls.map LimiterCall.nowNs).Pairwise (· ≤ ·)) {t₀ t₁ : Nat}
    (htimes : ∀ c ∈ calls, t₀ ≤ c.nowNs ∧ c.nowNs ≤ t₁) :
    (totalGranted cfg topic l calls : ℚ) ≤
      available cfg topic l t₀ + totalRefunded calls + elapsedSecs t₁ t₀ * cfg.rate := by
  induction calls generalizing l t₀ with
  | nil =>
      have hnonneg : 0 ≤ available cfg topic l t₀ := (h.refilled t₀).1
      have htime : 0 ≤ elapsedSecs t₁ t₀ * cfg.rate :=
        mul_nonneg (elapsedSecs_nonneg ..) cfg.rate_pos.le
      simp only [totalGranted, totalRefunded, List.map_nil, List.sum_nil, Nat.cast_zero]
      linarith
  | cons c rest ih =>
      obtain ⟨hfirst, hrest⟩ := List.pairwise_cons.mp hclock
      obtain ⟨⟨hlow, hhigh⟩, htimes'⟩ := List.forall_mem_cons.mp htimes
      have hlater : ∀ c' ∈ rest, c.nowNs ≤ c'.nowNs := fun c' hc' =>
        hfirst _ (List.mem_map_of_mem hc')
      rw [totalGranted, totalRefunded, List.map_cons, List.sum_cons, Nat.cast_add, Nat.cast_add]
      cases c with
      | take want now =>
          -- what is left after the grant is what the rest starts from
          have hih := ih (h.apply (.take want now)) hrest fun c' hc' =>
            ⟨hlater c' hc', (htimes' c' hc').2⟩
          have htake := available_take cfg topic l want now
          have htime := available_le_add cfg topic l hlow
          have hsplit := congrArg (· * cfg.rate) (elapsedSecs_add hlow hhigh)
          simp only [LimiterCall.nowNs, LimiterCall.refunded, Nat.cast_zero, totalRefunded,
            add_mul] at hih htime hsplit ⊢
          linarith
      | refund amount now =>
          have hih := ih (h.apply (.refund amount now)) hrest htimes'
          have hrefund := available_refund cfg topic l amount t₀ now
          simp only [LimiterCall.granted, LimiterCall.refunded, Nat.cast_zero, totalRefunded]
            at hih ⊢
          linarith

/-! ## The retry hint -/

theorem one_le_retryMs {rate needed : ℚ} (hrate : 0 < rate) (hneeded : 0 < needed) :
    1 ≤ retryMs rate needed := by
  rw [retryMs, if_pos hrate]
  exact le_min (Nat.one_le_ceil_iff.mpr (by positivity)) (by decide)

/-- A hint that fits into a `u64` is long enough. -/
theorem le_retryMs {rate needed : ℚ} (hrate : 0 < rate) (hneeded : needed ≤ 1)
    (hfits : 1000 ≤ rate * u64Max) : needed / rate * 1000 ≤ retryMs rate needed := by
  have hmax : needed / rate * 1000 ≤ (u64Max : ℚ) := by
    rw [div_mul_eq_mul_div, div_le_iff₀ hrate]
    linarith
  rw [retryMs, if_pos hrate, min_eq_left (Nat.ceil_le.mpr hmax)]
  exact Nat.le_ceil _

/-- Refunds leave the bucket at its time, with no less in it. -/
theorem run_refunds {refunds : List LimiterCall}
    (hrefunds : ∀ c ∈ refunds, ∃ amount now, c = .refund amount now) {b : Bucket}
    (hb : l.buckets.get? topic = some b) (hle : b.tokens ≤ cfg.burst) :
    ∃ b', (run cfg topic l refunds).buckets.get? topic = some b' ∧ b'.last = b.last ∧
      b.tokens ≤ b'.tokens := by
  induction refunds generalizing l b with
  | nil => exact ⟨b, hb, rfl, le_rfl⟩
  | cons c rest ih =>
      obtain ⟨⟨amount, now, rfl⟩, hrest⟩ := List.forall_mem_cons.mp hrefunds
      by_cases hzero : amount = 0
      · refine ih hrest ?_ hle
        rw [LimiterCall.apply, refund, if_pos hzero, hb]
      · have hput : ((LimiterCall.refund amount now).apply cfg topic l).buckets.get? topic =
            some { b with tokens := TokenBucket.refund cfg.burst amount b.tokens } := by
          rw [LimiterCall.apply, refund, if_neg hzero]
          simp only [hb]
          exact OrdMap.get?_insert_self ..
        obtain ⟨b', hb', hlast, hmore⟩ := ih hrest hput refund_le_burst
        exact ⟨b', hb', hlast, (le_refund (Nat.cast_nonneg _) hle).trans hmore⟩

/-- After the hint has passed there is a token. -/
theorem granted_after_retry {b : Bucket} (hb : l.buckets.get? topic = some b) {needed : ℚ}
    (hneeded : 1 - b.tokens ≤ needed) (hone : needed ≤ 1) (hfits : 1000 ≤ cfg.rate * u64Max)
    {now : Nat} (hnow : b.last + retryMs cfg.rate needed * nsPerMs ≤ now) {want : Nat}
    (hwant : 1 ≤ want) :
    ∃ grant, 1 ≤ grant ∧ (l.take topic cfg.rate cfg.burst want now).2 = .ok grant := by
  have hrate := cfg.rate_pos
  have hhint := le_retryMs hrate hone hfits
  have helapsed : (retryMs cfg.rate needed : ℚ) / 1000 ≤ elapsedSecs now b.last := by
    have hns : ((retryMs cfg.rate needed * nsPerMs : Nat) : ℚ) ≤ ((now - b.last : Nat) : ℚ) :=
      Nat.cast_le.mpr (by omega)
    rw [elapsedSecs, div_le_div_iff₀ (by norm_num) (by norm_num [nsPerSec])]
    rw [Nat.cast_mul] at hns
    norm_num [nsPerMs, nsPerSec] at hns ⊢
    linarith
  have hwait : (1 - b.tokens) / cfg.rate ≤ elapsedSecs now b.last := by
    have hstep : (1 - b.tokens) / cfg.rate ≤ needed / cfg.rate :=
      div_le_div_of_nonneg_right hneeded hrate.le
    linarith
  have hfull : 1 ≤ (l.refilled topic cfg.rate cfg.burst now).tokens := by
    simp only [refilled, hb, Option.getD_some]
    exact one_le_refill hrate (Nat.one_le_cast.mpr cfg.burst_pos) hwait
  rcases l.take_cases topic cfg.rate cfg.burst hwant now with ⟨grant, hpos, -, -, heq⟩ | ⟨hlt, -⟩
  · exact ⟨grant, hpos, by rw [heq]⟩
  · exact absurd hlt (not_lt.mpr hfull)

/-- A grant is no more than what was asked for, and at least one token. -/
theorem take_ok {want now grant : Nat}
    (h : (l.take topic cfg.rate cfg.burst want now).2 = .ok grant) :
    grant ≤ want ∧ (want ≠ 0 → 1 ≤ grant) := by
  rcases Nat.eq_zero_or_pos want with rfl | hwant
  · simp only [take, if_pos, Except.ok.injEq] at h
    exact ⟨h.ge, fun hne => absurd rfl hne⟩
  · rcases l.take_cases topic cfg.rate cfg.burst hwant now with ⟨g, hpos, hle, -, heq⟩ | ⟨-, heq⟩
    · rw [heq] at h
      obtain rfl := Except.ok.inj h
      exact ⟨hle, fun _ => hpos⟩
    · rw [heq] at h
      cases h

/-- A refusal leaves a bucket with less than a token, at the time of the
call, and the hint is for what it lacks. -/
theorem take_error {want now r : Nat}
    (h : (l.take topic cfg.rate cfg.burst want now).2 = .error r) :
    (l.refilled topic cfg.rate cfg.burst now).tokens < 1 ∧
    r = retryMs cfg.rate (1 - (l.refilled topic cfg.rate cfg.burst now).tokens) ∧
    (l.take topic cfg.rate cfg.burst want now).1.buckets.get? topic =
      some (l.refilled topic cfg.rate cfg.burst now) := by
  rcases Nat.eq_zero_or_pos want with rfl | hwant
  · cases h
  · rcases l.take_cases topic cfg.rate cfg.burst hwant now with ⟨g, -, -, -, heq⟩ | ⟨hlt, heq⟩
    · rw [heq] at h
      cases h
    · rw [heq] at h ⊢
      exact ⟨hlt, (Except.error.inj h).symm, OrdMap.get?_insert_self ..⟩

end RateLimiter

/-- The limiter over calls on one topic at times that never go back: the
tokens stay within the burst, a grant is at least one and at most what was
asked for, a stretch of calls gets no more than the burst and the rate over
its time, and after the retry hint, if that fits into a `u64`, there is a
token. -/
theorem limiter_enforces_rate (cfg : RateConfig) (topic : TopicId) {calls : List LimiterCall}
    (hclock : (calls.map LimiterCall.nowNs).Pairwise (· ≤ ·)) :
    let l := RateLimiter.run cfg topic {} calls
    (∀ b, l.buckets.get? topic = some b → 0 ≤ b.tokens ∧ b.tokens ≤ cfg.burst) ∧
    (∀ want now grant, (l.take topic cfg.rate cfg.burst want now).2 = .ok grant →
      grant ≤ want ∧ (want ≠ 0 → 1 ≤ grant)) ∧
    (∀ pre stretch, calls = pre ++ stretch → ∀ t₀ t₁,
      (∀ c ∈ stretch, t₀ ≤ c.nowNs ∧ c.nowNs ≤ t₁) →
      (RateLimiter.totalGranted cfg topic (RateLimiter.run cfg topic {} pre) stretch : ℚ) -
        RateLimiter.totalRefunded stretch ≤ cfg.burst + cfg.rate * elapsedSecs t₁ t₀) ∧
    ∀ want now r, (l.take topic cfg.rate cfg.burst want now).2 = .error r → 1 ≤ r ∧
      (1000 ≤ cfg.rate * u64Max → ∀ refunds : List LimiterCall,
        (∀ c ∈ refunds, ∃ amount at_, c = .refund amount at_) → ∀ want' now', 1 ≤ want' →
        now + r * nsPerMs ≤ now' → ∃ grant, 1 ≤ grant ∧
          ((RateLimiter.run cfg topic (l.take topic cfg.rate cfg.burst want now).1 refunds).take
            topic cfg.rate cfg.burst want' now').2 = .ok grant) := by
  intro l
  have hwithin : l.Within cfg topic := RateLimiter.run_within calls
  refine ⟨hwithin, fun _ _ _ => RateLimiter.take_ok, ?_, fun want now r hr => ?_⟩
  · rintro pre stretch rfl t₀ t₁ htimes
    rw [List.map_append, List.pairwise_append] at hclock
    have hstart : (RateLimiter.run cfg topic {} pre).Within cfg topic :=
      RateLimiter.run_within pre
    have hstretch := RateLimiter.stretch_le hstart hclock.2.1 htimes
    have hburst := (hstart.refilled t₀).2
    rw [RateLimiter.available] at hstretch
    linarith
  · obtain ⟨hlt, rfl, hbucket⟩ := RateLimiter.take_error hr
    have hfull := hwithin.refilled now
    refine ⟨RateLimiter.one_le_retryMs cfg.rate_pos (sub_pos.mpr hlt),
      fun hfits refunds hrefunds want' now' hwant' hnow' => ?_⟩
    obtain ⟨b, hb, hlast, hmore⟩ := RateLimiter.run_refunds hrefunds hbucket hfull.2
    exact RateLimiter.granted_after_retry hb (sub_le_sub_left hmore 1)
      (sub_le_self _ hfull.1) hfits (hlast ▸ hnow') hwant'

/-- One token per second, at most one at a time. -/
def oncePerSecond : RateConfig := ⟨1, 1, by decide, by decide⟩

/-- The token is taken; the next one comes a second later. -/
theorem limiter_enforces_rate_once_per_second :
    let cfg := oncePerSecond
    let l := RateLimiter.run cfg "t" {} [.take 3 0]
    (l.take "t" cfg.rate cfg.burst 1 0).2 = .error 1000 ∧
      ∃ grant, 1 ≤ grant ∧ ((RateLimiter.run cfg "t" (l.take "t" cfg.rate cfg.burst 1 0).1
        [.refund 0 5]).take "t" cfg.rate cfg.burst 1 nsPerSec).2 = .ok grant := by
  intro cfg l
  have hlimited : (l.take "t" cfg.rate cfg.burst 1 0).2 = .error 1000 := by decide +kernel
  have hclock : ([.take 3 0].map LimiterCall.nowNs).Pairwise (· ≤ ·) := by decide
  have hretry := (limiter_enforces_rate cfg "t" hclock).2.2.2 1 0 1000 hlimited
  have hfits : 1000 ≤ cfg.rate * u64Max := by decide +kernel
  exact ⟨hlimited, hretry.2 hfits [.refund 0 5] (by simp) 1 nsPerSec le_rfl (by decide)⟩

/-- One token in 10^20 seconds. -/
def hardlyEver : RateConfig := ⟨1 / 10 ^ 20, 1, by norm_num, by decide⟩

/-- The hint is cut off at the last `u64`, and after it there is no token. -/
theorem hint_cut_off :
    let l := RateLimiter.run hardlyEver "t" {} [.take 1 0]
    (l.take "t" hardlyEver.rate 1 1 0).2 = .error u64Max ∧
      ((l.take "t" hardlyEver.rate 1 1 0).1.take "t" hardlyEver.rate 1 1
        (u64Max * nsPerMs)).2 = .error u64Max := by
  decide +kernel

end HermesMq
