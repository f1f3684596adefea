import HermesMq.Types
import Mathlib.Data.String.Basic

/-!
# The storage of a node

The two tables a node keeps in its database: the Raft log by index and
the small records by key. Every operation is one transaction. Whether a
write transaction succeeds is up to the caller of the model: an
operation that fails leaves the database as it was.
-/

namespace HermesMq

def keyVote : String := "sys:vote"

def keyCommitted : String := "sys:committed"

structure Storage where
  log : OrdMap Nat Bytes := ∅
  records : OrdMap String Bytes := ∅
deriving DecidableEq

namespace Storage

def appendLog (db : Storage) (entries : List (Nat × Bytes)) : Storage :=
  { db with log := db.log.insertAll entries }

def readLog (db : Storage) (start stop : Nat) : List (Nat × Bytes) :=
  (db.log.range start stop).entries

def truncateLogFrom (db : Storage) (index : Nat) : Storage :=
  { db with log := db.log.filter fun i _ => i < index }

def purgeLogUpto (db : Storage) (index : Nat) : Storage :=
  { db with log := db.log.filter fun i _ => index < i }

def firstLogIndex (db : Storage) : Option Nat := db.log.firstKey?

def lastLogIndex (db : Storage) : Option Nat := db.log.lastKey?

def put (db : Storage) (key : String) (value : Bytes) : Storage :=
  { db with records := db.records.insert key value }

def get (db : Storage) (key : String) : Option Bytes := db.records.get? key

def delete (db : Storage) (key : String) : Storage :=
  { db with records := db.records.erase key }

def readVote (db : Storage) : Option Bytes := db.get keyVote

def readCommitted (db : Storage) : Option Bytes := db.get keyCommitted

/-- A write transaction of a sequence that can be cut between any two. -/
inductive Write where
  | put (key : String) (value : Bytes)
  | purgeLogUpto (index : Nat)

def write (db : Storage) : Write → Storage
  | .put key value => db.put key value
  | .purgeLogUpto index => db.purgeLogUpto index

def writeAll (db : Storage) (writes : List Write) : Storage := writes.foldl write db

/-! ## Lookups after a write -/

section Lookup

variable (db : Storage) (key other : String) (value : Bytes) (index i : Nat)

theorem get_put : (db.put key value).get other = if other = key then some value else db.get other :=
  OrdMap.get?_insert ..

theorem get_delete : (db.delete key).get other = if other = key then none else db.get other :=
  OrdMap.get?_erase ..

@[simp] theorem get_purgeLogUpto : (db.purgeLogUpto index).get key = db.get key := rfl

theorem purgeLogUpto_log :
    (db.purgeLogUpto index).log.get? i = if i ≤ index then none else db.log.get? i := by
  rw [purgeLogUpto, OrdMap.get?_filter]
  cases db.log.get? i with
  | none => simp
  | some bytes => by_cases h : i ≤ index <;> simp [Option.filter_some, h]

end Lookup

/-- A database is its log and its records. -/
theorem ext_get {db db' : Storage} (hlog : db.log = db'.log)
    (hget : ∀ key, db.get key = db'.get key) : db = db' := by
  cases db
  cases db'
  cases hlog
  exact congrArg _ (OrdMap.ext_get? hget)

/-- Purging up to the last entry empties the log. -/
theorem purgeLogUpto_last {db : Storage} {last : Nat} (h : db.lastLogIndex = some last) :
    (db.purgeLogUpto last).log = ∅ := by
  refine OrdMap.ext_get? fun i => ?_
  rw [purgeLogUpto_log, OrdMap.get?_empty]
  split_ifs with hi
  · rfl
  · cases hget : db.log.get? i with
    | none => rfl
    | some bytes => exact absurd ((OrdMap.lastKey?_eq_some.mp h).2 i bytes hget) hi

end Storage

end HermesMq
