import HermesMq.OrdMap
import Mathlib.Algebra.Group.Nat.Defs
import Mathlib.Data.Prod.Lex

/-!
# Requests, responses and machine integers

The vocabulary of the replicated queue: messages, the requests the log
carries, the responses a node computes for them, and the saturating
`u64` addition every counter and deadline goes through.

Unsigned integers are natural numbers. Truncating subtraction is
`saturating_sub`; `satAdd` is `saturating_add`, and `wrapSucc` a plain
`+ 1`.
-/

namespace HermesMq

/-! ## Machine integers -/

/-- `u64::MAX`. -/
def u64Max : Nat := 2 ^ 64 - 1

/-- `u64::saturating_add`. -/
def satAdd (a b : Nat) : Nat := min (a + b) u64Max

theorem satAdd_le_add (a b : Nat) : satAdd a b ≤ a + b := Nat.min_le_left ..

theorem satAdd_le_max (a b : Nat) : satAdd a b ≤ u64Max := Nat.min_le_right ..

theorem le_satAdd {a : Nat} (h : a ≤ u64Max) (b : Nat) : a ≤ satAdd a b :=
  Nat.le_min.mpr ⟨Nat.le_add_right .., h⟩

theorem satAdd_one_of_lt {a : Nat} (h : a < u64Max) : satAdd a 1 = a + 1 :=
  Nat.min_eq_left h

/-- The successor on `u64` in a build that does not check for overflow, as
releases are; one that does stops with a panic instead. -/
def wrapSucc (a : Nat) : Nat := (a + 1) % 2 ^ 64

theorem wrapSucc_le (a : Nat) : wrapSucc a ≤ a + 1 := Nat.mod_le ..

theorem wrapSucc_of_lt {a : Nat} (h : a < u64Max) : wrapSucc a = a + 1 :=
  Nat.mod_eq_of_lt (Nat.add_lt_of_lt_sub h)

/-! ## Messages -/

abbrev Offset := Nat

abbrev LeaseId := Nat

abbrev TopicId := String

abbrev GroupId := String

abbrev Bytes := List UInt8

/-- A `u8`; higher is more urgent. -/
abbrev Priority := Fin 256

/-- `Priority::default()`. -/
def Priority.default : Priority := 0

inductive ContentType where
  | raw
  | text
  | json
  | msgPack
deriving DecidableEq, Repr, Inhabited

structure Message where
  offset : Offset
  priority : Priority
  contentType : ContentType
  payload : Bytes
  tsMs : Nat
deriving DecidableEq, Repr

/-- One message of a produce. -/
structure ProduceItem where
  topic : TopicId
  priority : Priority
  contentType : ContentType
  payload : Bytes
  producerId : String
  seq : Nat
  tsMs : Nat
deriving DecidableEq, Repr

/-- A message handed out under a lease. -/
structure Delivered where
  leaseId : LeaseId
  offset : Offset
  priority : Priority
  contentType : ContentType
  payload : Bytes
  tsMs : Nat
deriving DecidableEq, Repr

/-! ## Requests and responses -/

inductive AppRequest where
  | produce (topic : TopicId) (priority : Priority) (contentType : ContentType)
      (payload : Bytes) (producerId : String) (seq tsMs : Nat)
  | poll (topic : TopicId) (group : GroupId) (max visibilityTimeoutMs tsMs : Nat)
  | ack (topic : TopicId) (group : GroupId) (leaseId : LeaseId)
  | nack (topic : TopicId) (group : GroupId) (leaseId : LeaseId)
  | commitOffset (topic : TopicId) (group : GroupId) (offset : Offset)
  | createTopic (topic : TopicId)
  | deleteTopic (topic : TopicId)
  | setRateLimit (topic : TopicId) (rateMilliPerSec burst : Nat)
  | setRetention (topic : TopicId) (maxMessages maxAgeMs : Nat)
  | ackMany (topic : TopicId) (group : GroupId) (leaseIds : List LeaseId)
  | produceMany (items : List ProduceItem)
  | nackMany (topic : TopicId) (group : GroupId) (leaseIds : List LeaseId)
  | pollAuto (topic : TopicId) (group : GroupId) (max visibilityTimeoutMs tsMs : Nat)
  | commitOffsetAt (topic : TopicId) (group : GroupId) (offset : Offset) (tsMs : Nat)
deriving DecidableEq, Repr

inductive AppResponse where
  | produced (offset : Offset)
  | polled (items : List Delivered)
  | acked
  | nacked
  | committed
  | topicCreated
  | topicDeleted
  | rateLimitSet
  | retentionSet
  | noOp
  | producedMany (offsets : List Offset)
  | rejected (reason : String)
deriving DecidableEq, Repr

/-- The key a produce is deduplicated by: producer id and sequence
number, ordered lexicographically. -/
abbrev DedupKey := String ×ₗ Nat

end HermesMq
