import HermesMq.ProduceBatch

/-!
# The client protocol

The requests a client can send, as they come over the wire, and the
comparison of the tokens of both ports. A token is compared without
looking at where the two differ, and still holds of equal byte strings
only (`secretEq_iff`).
-/

namespace HermesMq

/-! ## Requests -/

structure PollFrame where
  topic : String
  group : String
  max : Nat
  visibilityTimeoutMs : Nat
  ackMode : String
  waitMs : Nat
deriving DecidableEq

structure SubscribeFrame where
  topic : String
  group : String
  prefetch : Nat
  visibilityTimeoutMs : Nat
  ackMode : String
deriving DecidableEq

/-- A member of the cluster to be set up. -/
structure NodeFrame where
  id : Nat
  peerAddr : String
deriving DecidableEq

/-- The rate of `setRateLimit` is a double, given by its bits. -/
inductive RequestKind where
  | produce (p : ProduceFrame)
  | poll (p : PollFrame)
  | ack (topic group : String) (leaseId : Nat)
  | nack (topic group : String) (leaseId : Nat)
  | commit (topic group : String) (offset : Nat)
  | createTopic (topic : String)
  | deleteTopic (topic : String)
  | stats
  | bootstrap (nodes : List NodeFrame)
  | setRateLimit (topic : String) (ratePerSec : UInt64) (burst : Nat)
  | setRetention (topic : String) (maxMessages maxAgeMs : Nat)
  | subscribe (sub : SubscribeFrame)
  | auth (token : String)
deriving DecidableEq

structure Request where
  kind : Option RequestKind
deriving DecidableEq

/-! ## Tokens -/

def utf8Bytes (s : String) : Bytes := s.toUTF8.data.toList

def secretEq (a b : Bytes) : Bool :=
  a.length == b.length && (a.zip b).foldl (fun acc p => acc ||| (p.1 ^^^ p.2)) 0 == 0

theorem foldl_or_eq_zero (l : List (UInt8 × UInt8)) (acc : UInt8) :
    l.foldl (fun acc p => acc ||| (p.1 ^^^ p.2)) acc = 0 ↔ acc = 0 ∧ ∀ p ∈ l, p.1 = p.2 := by
  induction l generalizing acc with
  | nil => simp
  | cons p rest ih =>
      rw [List.foldl_cons, ih, UInt8.or_eq_zero_iff, UInt8.xor_eq_zero_iff, List.forall_mem_cons,
        and_assoc]

theorem secretEq_iff {a b : Bytes} : secretEq a b = true ↔ a = b := by
  rw [secretEq, Bool.and_eq_true, beq_iff_eq, beq_iff_eq, foldl_or_eq_zero]
  induction a generalizing b with
  | nil =>
      cases b with
      | nil => simp
      | cons y b => simp
  | cons x a ih =>
      cases b with
      | nil => simp
      | cons y b =>
          simp only [List.length_cons, Nat.add_right_cancel_iff, List.zip_cons_cons,
            List.forall_mem_cons, List.cons.injEq, ← ih]
          tauto

end HermesMq
