import HermesMq.SnapshotStore

/-!
# Installing a snapshot

`install_snapshot` persists the bytes it received and puts the state they
decode to in memory. Decoding normalizes the state, and bytes of old
releases have another layout, so what is persisted is not the encoding of
what is in memory. The two agree all the same, on this node after a restart
and on every node the snapshot is sent on to, because each of them decodes
the same bytes with the same function.

The function is a sequence of effects on the store; one that fails leaves
behind what the earlier ones did. `install_cases` says what that is.
-/

namespace HermesMq

/-- What `get_current_snapshot` answers. -/
structure Snapshot where
  snapshotMeta : SnapshotMeta
  snapshot : Bytes
deriving DecidableEq

/-- Effects on the store of a node; a failure keeps the effects before it. -/
abbrev StoreM := ExceptT String (StateM StateMachineStore)

section Install

variable (postcard : Codec StateMachineData) (decV0 : Bytes → Except String StateMachineDataV0)
  (storedCodec : Codec StoredSnapshot)

/-- `written` is the outcome of encoding the record and of its write
transaction, which happens or does not. -/
def installSnapshot (snapshotMeta : SnapshotMeta) (snapshot : Bytes)
    (written : Except String Unit) : StoreM Unit := do
  let data ← MonadExcept.ofExcept (decodeState postcard decV0 snapshot)
  let stored : StoredSnapshot := { snapshotMeta := snapshotMeta, data := snapshot }
  MonadExcept.ofExcept written
  modify fun s => { s with db := persistSnapshot storedCodec s.db stored }
  modify fun s => { s with data := data }

/-- The outcome and the store an install leaves. -/
def StateMachineStore.install (s : StateMachineStore) (snapshotMeta : SnapshotMeta)
    (snapshot : Bytes) (written : Except String Unit) : Except String Unit × StateMachineStore :=
  ((installSnapshot postcard decV0 storedCodec snapshotMeta snapshot written).run.run s)

def StateMachineStore.getCurrentSnapshot (s : StateMachineStore) :
    Except String (Option Snapshot) :=
  match s.db.get keySnapshot with
  | some bytes => do
      let stored ← storedCodec.dec bytes
      return some { snapshotMeta := stored.snapshotMeta, snapshot := stored.data }
  | none => .ok none

end Install

section Lemmas

variable (postcard : Codec StateMachineData) (decV0 : Bytes → Except String StateMachineDataV0)
  (storedCodec : Codec StoredSnapshot)

/-- An install fails with nothing done, or does all of it. -/
theorem install_cases (s : StateMachineStore) (snapshotMeta : SnapshotMeta) (snapshot : Bytes)
    (written : Except String Unit) :
    (∃ reason, s.install postcard decV0 storedCodec snapshotMeta snapshot written =
      (.error reason, s)) ∨
    ∃ data, decodeState postcard decV0 snapshot = .ok data ∧
      s.install postcard decV0 storedCodec snapshotMeta snapshot written =
        (.ok (), { s with db := persistSnapshot storedCodec s.db ⟨snapshotMeta, snapshot⟩
                          data := data }) := by
  unfold StateMachineStore.install installSnapshot
  cases decodeState postcard decV0 snapshot with
  | error reason => exact Or.inl ⟨reason, rfl⟩
  | ok data =>
      cases written with
      | error reason => exact Or.inl ⟨reason, rfl⟩
      | ok u => exact Or.inr ⟨data, rfl, rfl⟩

/-- Bytes that decode are installed if the write succeeds. -/
theorem install_ok (s : StateMachineStore) (snapshotMeta : SnapshotMeta) {snapshot : Bytes}
    {data : StateMachineData} (h : decodeState postcard decV0 snapshot = .ok data) :
    s.install postcard decV0 storedCodec snapshotMeta snapshot (.ok ()) =
      (.ok (), { s with db := persistSnapshot storedCodec s.db ⟨snapshotMeta, snapshot⟩
                        data := data }) := by
  unfold StateMachineStore.install installSnapshot
  rw [h]
  rfl

/-- Reading the record an install wrote. -/
theorem get_persistSnapshot (db : Storage) (stored : StoredSnapshot) :
    (persistSnapshot storedCodec db stored).get keySnapshot = some (storedCodec.enc stored) := by
  rw [persistSnapshot, Storage.get_put, if_pos rfl]

/-- A restart reads back the state that was installed. -/
theorem new_persistSnapshot (db : Storage) {stored : StoredSnapshot} {data : StateMachineData}
    (h : decodeState postcard decV0 stored.data = .ok data) :
    StateMachineStore.new postcard decV0 storedCodec (persistSnapshot storedCodec db stored) =
      .ok { data := data, db := persistSnapshot storedCodec db stored } := by
  simp only [StateMachineStore.new, get_persistSnapshot, storedCodec.dec_enc, h, bind, Except.bind]
  rfl

end Lemmas

/-- An install either fails and leaves the record and the state in memory
as they were, or the state in memory passes `validate` and is the one a
restart reads from the record; and every node that installs the snapshot
this node then offers has that state too, in memory and after a restart. -/
theorem install_snapshot_all_or_nothing (postcard : Codec StateMachineData)
    (decV0 : Bytes → Except String StateMachineDataV0) (storedCodec : Codec StoredSnapshot)
    (s : StateMachineStore) (snapshotMeta : SnapshotMeta) (snapshot : Bytes)
    (written : Except String Unit) :
    let r := s.install postcard decV0 storedCodec snapshotMeta snapshot written
    (∀ reason, r.1 = .error reason →
      r.2.db.get keySnapshot = s.db.get keySnapshot ∧ r.2.data = s.data) ∧
    (r.1 = .ok () → r.2.data.queue.validate = .ok () ∧
      (∃ restarted, StateMachineStore.new postcard decV0 storedCodec r.2.db = .ok restarted ∧
        restarted.data = r.2.data) ∧
      ∃ current, r.2.getCurrentSnapshot storedCodec = .ok (some current) ∧
        ∀ node : StateMachineStore,
          let r' := node.install postcard decV0 storedCodec current.snapshotMeta current.snapshot
            (.ok ())
          r'.1 = .ok () ∧ r'.2.data = r.2.data ∧
          ∃ restarted, StateMachineStore.new postcard decV0 storedCodec r'.2.db = .ok restarted ∧
            restarted.data = r.2.data) := by
  intro r
  rcases install_cases postcard decV0 storedCodec s snapshotMeta snapshot written with
    ⟨reason, hr⟩ | ⟨data, hdata, hr⟩
  · rw [show r = _ from hr]
    exact ⟨fun _ _ => ⟨rfl, rfl⟩, fun h => by cases h⟩
  · rw [show r = _ from hr]
    refine ⟨fun _ h => (by cases h), fun _ => ⟨decodeState_valid postcard decV0 hdata, ?_, ?_⟩⟩
    · exact ⟨_, new_persistSnapshot postcard decV0 storedCodec s.db hdata, rfl⟩
    · refine ⟨⟨snapshotMeta, snapshot⟩, ?_, fun node => ?_⟩
      · simp only [StateMachineStore.getCurrentSnapshot, get_persistSnapshot, storedCodec.dec_enc]
        rfl
      · rw [install_ok postcard decV0 storedCodec node snapshotMeta hdata]
        exact ⟨rfl, rfl, _, new_persistSnapshot postcard decV0 storedCodec node.db hdata, rfl⟩

/-- Two snapshots in turn: the first write fails, the second does not. -/
theorem install_snapshot_all_or_nothing_retried :
    let r := StateMachineStore.install secondCodec (fun _ => .error "old layout") (.ofCountable _)
      {} secondSnapshot.snapshotMeta secondSnapshot.data (.error "disk full")
    let r' := r.2.install secondCodec (fun _ => .error "old layout") (.ofCountable _)
      secondSnapshot.snapshotMeta secondSnapshot.data (.ok ())
    r.2.data = {} ∧ r'.2.data = secondState ∧ r'.2.data.queue.validate = .ok () ∧
      ∃ restarted, StateMachineStore.new secondCodec (fun _ => .error "old layout")
        (.ofCountable _) r'.2.db = .ok restarted ∧ restarted.data = secondState := by
  intro r r'
  have hfailed := (install_snapshot_all_or_nothing secondCodec (fun _ => .error "old layout")
    (.ofCountable _) {} secondSnapshot.snapshotMeta secondSnapshot.data
    (.error "disk full")).1 "disk full" rfl
  have hdone := (install_snapshot_all_or_nothing secondCodec (fun _ => .error "old layout")
    (.ofCountable _) r.2 secondSnapshot.snapshotMeta secondSnapshot.data (.ok ())).2 rfl
  exact ⟨hfailed.2, rfl, hdone.1, hdone.2.1⟩

end HermesMq
