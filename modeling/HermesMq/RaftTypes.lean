import HermesMq.Codec
import HermesMq.Types
import Mathlib.Data.Finset.Defs
import Mathlib.Tactic.DeriveCountable

/-!
# Raft's vocabulary

The types of the consensus layer a node stores and applies: log ids,
memberships and log entries.
-/

namespace HermesMq

abbrev NodeId := Nat

structure CommittedLeaderId where
  term : Nat
  nodeId : NodeId
deriving DecidableEq, Repr

structure LogId where
  leaderId : CommittedLeaderId
  index : Nat
deriving DecidableEq, Repr

/-- Log ids are ordered by their fields: leader first, then index. -/
def LogId.sortKey (id : LogId) : Nat ×ₗ Nat ×ₗ Nat :=
  toLex (id.leaderId.term, toLex (id.leaderId.nodeId, id.index))

instance instLELogId : LE LogId := ⟨fun a b => a.sortKey ≤ b.sortKey⟩

instance instDecidableLELogId : DecidableLE LogId :=
  fun a b => inferInstanceAs (Decidable (a.sortKey ≤ b.sortKey))

/-- The voters of each joint configuration, and every node's address. -/
structure Membership where
  configs : List (Finset NodeId) := []
  nodes : OrdMap NodeId String := ∅
deriving DecidableEq

/-- A membership and the entry that set it. -/
structure StoredMembership where
  logId : Option LogId := none
  membership : Membership := {}
deriving DecidableEq

inductive EntryPayload where
  | blank
  | normal (req : AppRequest)
  | membership (m : Membership)
deriving DecidableEq

structure Entry where
  logId : LogId
  payload : EntryPayload
deriving DecidableEq

/-- A blank entry of the first leader. -/
def blankAt (index : Nat) : Entry := ⟨⟨⟨1, 1⟩, index⟩, .blank⟩

/-! All of them are countable, so they have codecs. -/

deriving instance Countable for ContentType, ProduceItem, AppRequest
deriving instance Countable for CommittedLeaderId, LogId, Membership, StoredMembership
deriving instance Countable for EntryPayload, Entry

end HermesMq
