import Mathlib.Algebra.Order.Field.Basic
import Mathlib.Tactic.Linarith

/-!
# Token buckets

The arithmetic of a bucket that fills at a rate up to a burst, over an
ordered field. `refill` is what a bucket holds after some time, and so what
it can give at most; time, spending and refunds move it as one expects, up
to the clamp at the burst, which only ever takes away.
-/

namespace TokenBucket

variable {K : Type} [Field K] [LinearOrder K]

/-- The bucket after a time. -/
def refill (rate burst elapsed tokens : K) : K := min (tokens + elapsed * rate) burst

/-- The bucket after tokens are given back. -/
def refund (burst amount tokens : K) : K := min (tokens + amount) burst

variable {rate burst tokens elapsed amount : K}

theorem refill_le_burst : refill rate burst elapsed tokens ≤ burst := min_le_right ..

theorem refund_le_burst : refund burst amount tokens ≤ burst := min_le_right ..

theorem refill_zero_le : refill rate burst 0 tokens ≤ tokens :=
  (min_le_left ..).trans (by rw [zero_mul, add_zero])

variable [IsStrictOrderedRing K]

theorem le_refill (hrate : 0 ≤ rate) (helapsed : 0 ≤ elapsed) (h : tokens ≤ burst) :
    tokens ≤ refill rate burst elapsed tokens :=
  le_min (le_add_of_nonneg_right (mul_nonneg helapsed hrate)) h

theorem le_refund (hamount : 0 ≤ amount) (h : tokens ≤ burst) :
    tokens ≤ refund burst amount tokens :=
  le_min (le_add_of_nonneg_right hamount) h

/-- More time brings no more than the rate. -/
theorem refill_le_add (hrate : 0 ≤ rate) {elapsed' more : K} (hmore : 0 ≤ more)
    (h : elapsed' ≤ elapsed + more) :
    refill rate burst elapsed' tokens ≤ refill rate burst elapsed tokens + more * rate := by
  have hfill : elapsed' * rate ≤ elapsed * rate + more * rate := by
    rw [← add_mul]
    exact mul_le_mul_of_nonneg_right h hrate
  have hextra : 0 ≤ more * rate := mul_nonneg hmore hrate
  rw [refill, refill, ← min_add_add_right]
  exact le_min ((min_le_left ..).trans (by linarith)) ((min_le_right ..).trans (by linarith))

/-- A bucket with no more than some amount more has no more than that more
after any time. -/
theorem refill_le_add_of_le (hamount : 0 ≤ amount) {tokens' : K}
    (h : tokens' ≤ tokens + amount) :
    refill rate burst elapsed tokens' ≤ refill rate burst elapsed tokens + amount := by
  rw [refill, refill, ← min_add_add_right]
  exact le_min ((min_le_left ..).trans (by linarith)) ((min_le_right ..).trans (by linarith))

/-- A refund brings no more than its amount. -/
theorem refill_refund_le (hamount : 0 ≤ amount) :
    refill rate burst elapsed (refund burst amount tokens) ≤
      refill rate burst elapsed tokens + amount := by
  have hrefund : refund burst amount tokens ≤ tokens + amount := min_le_left ..
  rw [refill, refill, ← min_add_add_right]
  exact le_min ((min_le_left ..).trans (by linarith)) ((min_le_right ..).trans (by linarith))

/-- Once the missing part of a token has had its time, there is one. -/
theorem one_le_refill (hrate : 0 < rate) (hburst : 1 ≤ burst)
    (hwait : (1 - tokens) / rate ≤ elapsed) : 1 ≤ refill rate burst elapsed tokens := by
  rw [div_le_iff₀ hrate] at hwait
  exact le_min (by linarith) hburst

end TokenBucket
