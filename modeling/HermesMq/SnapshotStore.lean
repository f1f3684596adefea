import HermesMq.Machine
import HermesMq.StateMachine
import HermesMq.Storage

/-!
# The persisted snapshot

Two writers share the record of the last snapshot. The builder clones the
state under the lock and persists the clone outside it; `install_snapshot`
persists a received snapshot and then replaces the state in memory. The
builder runs in a task of its own, so their steps interleave in any
order, with entries being applied and the node being restarted in between.

`install_snapshot` writes the metadata it is given beside the bytes and
does not compare the two. When every received snapshot holds the state its
metadata says, as every snapshot a node builds does, the record goes back
exactly when a build is persisted that an install has overtaken: the
install persisted a newer snapshot after the clone, or had persisted one
and not yet replaced the state when the clone was taken
(`snapshot_never_back_iff`).
-/

namespace HermesMq

def keySnapshot : String := "sm:snapshot"

structure SnapshotMeta where
  lastLogId : Option LogId
  lastMembership : StoredMembership
  snapshotId : String
deriving DecidableEq

structure StoredSnapshot where
  snapshotMeta : SnapshotMeta
  data : Bytes
deriving DecidableEq

structure StateMachineStore where
  data : StateMachineData := {}
  snapshotSeq : Nat := 0
  db : Storage := {}

section Store

-- `postcard` at the types of a snapshot, and its reader at the old layout
variable (postcard : Codec StateMachineData) (decV0 : Bytes → Except String StateMachineDataV0)
  (storedCodec : Codec StoredSnapshot)

def persistSnapshot (db : Storage) (stored : StoredSnapshot) : Storage :=
  db.put keySnapshot (storedCodec.enc stored)

/-- The highest log index the persisted snapshot covers. -/
def snapshotLastIndex (db : Storage) : Except String (Option Nat) :=
  match db.get keySnapshot with
  | some bytes =>
      (storedCodec.dec bytes).map fun stored => stored.snapshotMeta.lastLogId.map (·.index)
  | none => .ok none

namespace StateMachineStore

/-- Open the store: the state is that of the persisted snapshot. -/
def new (db : Storage) : Except String StateMachineStore :=
  match db.get keySnapshot with
  | some bytes => do
      let stored ← storedCodec.dec bytes
      let data ← decodeState postcard decV0 stored.data
      return { data := data, db := db }
  | none => .ok { db := db }

/-- `build_snapshot` under the lock, and the bytes of what it cloned. -/
def cloneState (s : StateMachineStore) : StateMachineStore × StoredSnapshot :=
  let seq := s.snapshotSeq + 1
  let id := match s.data.lastApplied with
    | some logId => s!"{logId.index}-{seq}"
    | none => s!"none-{seq}"
  ({ s with snapshotSeq := seq },
    { snapshotMeta := { lastLogId := s.data.lastApplied
                        lastMembership := s.data.lastMembership
                        snapshotId := id }
      data := encodeState postcard s.data })

end StateMachineStore

end Store

/-! ## Builder and installer -/

/-- How much of the log an index covers: more than none at all. -/
def covered : Option Nat → Nat
  | none => 0
  | some index => index + 1

def StoredSnapshot.covered (stored : StoredSnapshot) : Nat :=
  HermesMq.covered (stored.snapshotMeta.lastLogId.map (·.index))

def StateMachineData.covered (d : StateMachineData) : Nat :=
  HermesMq.covered (d.lastApplied.map (·.index))

/-- Where `install_snapshot` is. -/
inductive Install where
  | none
  | decoded (stored : StoredSnapshot) (data : StateMachineData)
  | persisted (stored : StoredSnapshot) (data : StateMachineData)
deriving DecidableEq

/-- How much the snapshot covers that is persisted and not yet in memory. -/
def Install.ahead : Install → Nat
  | .persisted stored _ => stored.covered
  | .none | .decoded .. => 0

structure SnapshotSystem where
  store : StateMachineStore := {}
  /-- The build that has cloned the state and not persisted it yet. -/
  build : Option StoredSnapshot := none
  install : Install := .none
  /-- An install has persisted a newer snapshot than that build's. -/
  overtaken : Bool := false
  /-- The snapshots installed so far. -/
  installed : List StoredSnapshot := []

inductive SnapshotEvent where
  | apply (entries : List Entry)
  | cloneState
  | persistBuild (ok : Bool)
  /-- `install_snapshot` begins and decodes what was received. -/
  | receive (stored : StoredSnapshot)
  | persistInstall (ok : Bool)
  | replaceState
  | restart
deriving DecidableEq

namespace SnapshotSystem

variable (postcard : Codec StateMachineData) (decV0 : Bytes → Except String StateMachineDataV0)
  (storedCodec : Codec StoredSnapshot)

/-- Raft applies entries in order, above what is applied. -/
def Appliable (s : SnapshotSystem) (entries : List Entry) : Prop :=
  (entries.map (·.logId.index)).Pairwise (· < ·) ∧
    ∀ e ∈ entries, s.store.data.covered ≤ e.logId.index

instance instDecidableAppliable (s : SnapshotSystem) (entries : List Entry) :
    Decidable (s.Appliable entries) :=
  inferInstanceAs (Decidable (_ ∧ _))

/-- One step; `none` when the event cannot happen in this state. There is
one build at a time and one install at a time, and Raft does not install a
snapshot older than the applied state. -/
def step (s : SnapshotSystem) : SnapshotEvent → Option SnapshotSystem
  | .apply entries =>
      if s.Appliable entries then
        some { s with store := { s.store with data := (s.store.data.apply entries).1 } }
      else none
  | .cloneState =>
      if s.build = none then
        some { s with store := (s.store.cloneState postcard).1
                      build := some (s.store.cloneState postcard).2
                      overtaken := s.store.data.covered < s.install.ahead }
      else none
  | .persistBuild ok =>
      match s.build with
      | none => none
      | some stored =>
          let db := if ok then persistSnapshot storedCodec s.store.db stored else s.store.db
          some { s with store := { s.store with db := db }, build := none, overtaken := false }
  | .receive stored =>
      if s.install = .none then
        match decodeState postcard decV0 stored.data with
        | .error _ => some s
        | .ok data => some { s with install := .decoded stored data }
      else none
  | .persistInstall ok =>
      match s.install with
      | .decoded stored data =>
          if s.store.data.covered ≤ stored.covered then
            if ok then
              some { s with store := { s.store with
                              db := persistSnapshot storedCodec s.store.db stored }
                            install := .persisted stored data
                            overtaken := s.overtaken ||
                              s.build.any (·.covered < stored.covered) }
            else some { s with install := .none }
          else none
      | _ => none
  | .replaceState =>
      match s.install with
      | .persisted stored data =>
          if s.store.data.covered ≤ stored.covered then
            some { s with store := { s.store with data := data }, install := .none
                          installed := stored :: s.installed }
          else none
      | _ => none
  | .restart =>
      match StateMachineStore.new postcard decV0 storedCodec s.store.db with
      | .error _ => none
      | .ok store =>
          some { s with store := store, build := none, install := .none, overtaken := false }

def run (s : SnapshotSystem) (evs : List SnapshotEvent) : Option SnapshotSystem :=
  Machine.run (step postcard decV0 storedCodec) s evs

/-- How much of the log the persisted snapshot covers. -/
def persisted (s : SnapshotSystem) : Nat :=
  match snapshotLastIndex storedCodec s.store.db with
  | .ok index => covered index
  | .error _ => 0

end SnapshotSystem

/-! ## What the record covers -/

section Invariant

variable {postcard : Codec StateMachineData} {decV0 : Bytes → Except String StateMachineDataV0}
  {storedCodec : Codec StoredSnapshot} {s s' : SnapshotSystem}

theorem persisted_of_get {stored : StoredSnapshot}
    (h : s.store.db.get keySnapshot = some (storedCodec.enc stored)) :
    s.persisted storedCodec = stored.covered := by
  simp only [SnapshotSystem.persisted, snapshotLastIndex, h, storedCodec.dec_enc]
  rfl

/-- The bytes of a snapshot hold the state its metadata says. -/
def Faithful (postcard : Codec StateMachineData)
    (decV0 : Bytes → Except String StateMachineDataV0) (stored : StoredSnapshot) : Prop :=
  ∀ data, decodeState postcard decV0 stored.data = .ok data →
    data.lastApplied = stored.snapshotMeta.lastLogId

theorem Faithful.covered {stored : StoredSnapshot} (h : Faithful postcard decV0 stored)
    {data : StateMachineData} (hdata : decodeState postcard decV0 stored.data = .ok data) :
    data.covered = stored.covered := by
  rw [StateMachineData.covered, StoredSnapshot.covered, h data hdata]

/-- After either writer's write. -/
theorem record_persisted (s' : SnapshotSystem) {stored : StoredSnapshot}
    (hf : Faithful postcard decV0 stored)
    (hdb : s'.store.db = persistSnapshot storedCodec s.store.db stored) :
    (∀ bytes, s'.store.db.get keySnapshot = some bytes →
      ∃ stored, bytes = storedCodec.enc stored ∧ Faithful postcard decV0 stored) ∧
    s'.persisted storedCodec = stored.covered := by
  have hget : s'.store.db.get keySnapshot = some (storedCodec.enc stored) := by
    rw [hdb]
    exact OrdMap.get?_insert_self ..
  refine ⟨fun bytes hbytes => ?_, persisted_of_get hget⟩
  exact ⟨stored, Option.some.inj (hbytes.symm.trans hget), hf⟩

/-- Where the two writers and the state in memory stand. -/
structure SnapshotInv (postcard : Codec StateMachineData)
    (decV0 : Bytes → Except String StateMachineDataV0) (storedCodec : Codec StoredSnapshot)
    (s : SnapshotSystem) : Prop where
  record : ∀ bytes, s.store.db.get keySnapshot = some bytes →
    ∃ stored, bytes = storedCodec.enc stored ∧ Faithful postcard decV0 stored
  build_faithful : ∀ stored, s.build = some stored →
    Faithful postcard decV0 stored ∧ stored.covered ≤ s.store.data.covered
  fresh : ∀ stored, s.build = some stored → s.overtaken = false →
    s.persisted storedCodec ≤ stored.covered
  stale : ∀ stored, s.build = some stored → s.overtaken = true →
    stored.covered < s.persisted storedCodec
  install_faithful : ∀ stored data,
    s.install = .decoded stored data ∨ s.install = .persisted stored data →
    Faithful postcard decV0 stored ∧ data.covered = stored.covered
  ahead_le : s.install.ahead ≤ s.persisted storedCodec
  le_max : s.persisted storedCodec ≤ max s.store.data.covered s.install.ahead
  installed_le : ∀ stored ∈ s.installed, stored.covered ≤ s.persisted storedCodec

namespace SnapshotInv

theorem empty_start : SnapshotInv postcard decV0 storedCodec {} where
  record bytes h := by cases h
  build_faithful stored h := by cases h
  fresh stored h := by cases h
  stale stored h := by cases h
  install_faithful stored data h := by rcases h with h | h <;> cases h
  ahead_le := Nat.zero_le _
  le_max := Nat.zero_le _
  installed_le stored h := absurd h List.not_mem_nil

end SnapshotInv

/-- Applying entries in order covers more of the log. -/
theorem apply_covered (d : StateMachineData) {entries : List Entry}
    (hsorted : (entries.map (·.logId.index)).Pairwise (· < ·))
    (habove : ∀ e ∈ entries, d.covered ≤ e.logId.index) :
    d.covered ≤ (d.apply entries).1.covered := by
  induction entries generalizing d with
  | nil => exact le_rfl
  | cons e rest ih =>
      rw [List.map_cons, List.pairwise_cons] at hsorted
      have hentry : (d.applyEntry e).1.covered = e.logId.index + 1 := by
        unfold StateMachineData.applyEntry
        cases e.payload <;> rfl
      have hle : d.covered ≤ (d.applyEntry e).1.covered := by
        rw [hentry]
        exact Nat.le_succ_of_le (habove e List.mem_cons_self)
      refine hle.trans (ih (d.applyEntry e).1 hsorted.2 fun e' he' => ?_)
      rw [hentry]
      exact hsorted.1 _ (List.mem_map.mpr ⟨e', he', rfl⟩)

theorem cloneState_faithful (store : StateMachineStore) :
    Faithful postcard decV0 (store.cloneState postcard).2 := by
  intro data hdata
  simp only [StateMachineStore.cloneState, decodeState, parseState_encodeState, bind,
    Except.bind] at hdata
  split at hdata
  · cases hdata
  · cases hdata
    rfl

namespace SnapshotInv

theorem apply (h : SnapshotInv postcard decV0 storedCodec s) {entries : List Entry}
    (hes : s.Appliable entries) : SnapshotInv postcard decV0 storedCodec
      { s with store := { s.store with data := (s.store.data.apply entries).1 } } :=
  have hle := apply_covered s.store.data hes.1 hes.2
  { h with
    build_faithful := fun stored hb =>
      (h.build_faithful stored hb).imp_right fun hcov => hcov.trans hle
    le_max := h.le_max.trans (max_le_max_right _ hle) }

theorem cloneState (h : SnapshotInv postcard decV0 storedCodec s) :
    SnapshotInv postcard decV0 storedCodec
      { s with store := (s.store.cloneState postcard).1
               build := some (s.store.cloneState postcard).2
               overtaken := s.store.data.covered < s.install.ahead } := by
  refine { h with
    build_faithful := fun stored hb => ?_
    fresh := fun stored hb hover => ?_
    stale := fun stored hb hover => ?_ }
  · obtain rfl := Option.some.inj hb
    exact ⟨cloneState_faithful s.store, le_rfl⟩
  · obtain rfl := Option.some.inj hb
    have hle : s.install.ahead ≤ s.store.data.covered := not_lt.mp (of_decide_eq_false hover)
    exact h.le_max.trans (max_le le_rfl hle)
  · obtain rfl := Option.some.inj hb
    exact lt_of_lt_of_le (of_decide_eq_true hover) h.ahead_le

/-- The builder's write, when no install has overtaken it. -/
theorem persistBuild (h : SnapshotInv postcard decV0 storedCodec s) {stored : StoredSnapshot}
    (hb : s.build = some stored) (hfresh : s.overtaken = false)
    (hs' : s' = { s with
      store := { s.store with db := persistSnapshot storedCodec s.store.db stored }
      build := none, overtaken := false }) :
    SnapshotInv postcard decV0 storedCodec s' ∧
      s.persisted storedCodec ≤ s'.persisted storedCodec := by
  obtain ⟨hfaithful, hcovered⟩ := h.build_faithful stored hb
  obtain ⟨hrecord, hnew⟩ := record_persisted s' hfaithful (by rw [hs'])
  have hle : s.persisted storedCodec ≤ s'.persisted storedCodec :=
    hnew ▸ h.fresh stored hb hfresh
  have hmax : s'.persisted storedCodec ≤ s.store.data.covered := hnew ▸ hcovered
  subst hs'
  exact ⟨⟨hrecord, fun _ hb' => (by cases hb'), fun _ hb' => (by cases hb'),
    fun _ hb' => (by cases hb'), h.install_faithful, h.ahead_le.trans hle,
    hmax.trans (le_max_left ..), fun st hst => (h.installed_le st hst).trans hle⟩, hle⟩

/-- The write that goes back. -/
theorem persistBuild_overtaken (h : SnapshotInv postcard decV0 storedCodec s)
    {stored : StoredSnapshot} (hb : s.build = some stored) (hover : s.overtaken = true)
    (hdb : s'.store.db = persistSnapshot storedCodec s.store.db stored) :
    s'.persisted storedCodec < s.persisted storedCodec := by
  obtain ⟨-, hnew⟩ := record_persisted s' (h.build_faithful stored hb).1 hdb
  exact hnew ▸ h.stale stored hb hover

/-- The installer's write. -/
theorem persistInstall (h : SnapshotInv postcard decV0 storedCodec s) {stored : StoredSnapshot}
    {data : StateMachineData} (hi : s.install = .decoded stored data)
    (hnewer : s.store.data.covered ≤ stored.covered)
    (hs' : s' = { s with
      store := { s.store with db := persistSnapshot storedCodec s.store.db stored }
      install := .persisted stored data
      overtaken := s.overtaken || s.build.any (·.covered < stored.covered) }) :
    SnapshotInv postcard decV0 storedCodec s' ∧
      s.persisted storedCodec ≤ s'.persisted storedCodec := by
  obtain ⟨hfaithful, hdata⟩ := h.install_faithful stored data (Or.inl hi)
  obtain ⟨hrecord, hnew⟩ := record_persisted s' hfaithful (by rw [hs'])
  have hle : s.persisted storedCodec ≤ s'.persisted storedCodec := by
    have hmax := h.le_max
    rw [hi] at hmax
    rw [hnew]
    exact hmax.trans (max_le hnewer (Nat.zero_le _))
  have hahead : s'.install.ahead = s'.persisted storedCodec := by
    rw [hnew, hs']
    rfl
  subst hs'
  refine ⟨⟨hrecord, h.build_faithful, fun st hb hover => ?_, fun st hb hover => ?_,
    fun st d hd => ?_, hahead.le, hahead ▸ le_max_right ..,
    fun st hst => (h.installed_le st hst).trans hle⟩, hle⟩
  · rw [hnew]
    have hb : s.build = some st := hb
    have hover : (s.overtaken || s.build.any (·.covered < stored.covered)) = false := hover
    rw [hb, Bool.or_eq_false_iff] at hover
    exact not_lt.mp (of_decide_eq_false hover.2)
  · have hb : s.build = some st := hb
    have hover : (s.overtaken || s.build.any (·.covered < stored.covered)) = true := hover
    rw [hb, Bool.or_eq_true] at hover
    rcases hover with hover | hover
    · exact lt_of_lt_of_le (h.stale st hb hover) hle
    · rw [hnew]
      exact of_decide_eq_true hover
  · rcases hd with hd | hd
    · cases hd
    · cases hd
      exact ⟨hfaithful, hdata⟩

/-- A decoded snapshot is not written yet. -/
theorem receive (h : SnapshotInv postcard decV0 storedCodec s) {stored : StoredSnapshot}
    {data : StateMachineData} (hi : s.install = .none) (hfaithful : Faithful postcard decV0 stored)
    (hdecode : decodeState postcard decV0 stored.data = .ok data) :
    SnapshotInv postcard decV0 storedCodec { s with install := .decoded stored data } := by
  have hmax := h.le_max
  rw [hi] at hmax
  refine { h with
    install_faithful := fun st d hd => ?_
    ahead_le := Nat.zero_le _
    le_max := hmax }
  rcases hd with hd | hd
  · cases hd
    exact ⟨hfaithful, hfaithful.covered hdecode⟩
  · cases hd

/-- An install that fails to write leaves no trace. -/
theorem abandon (h : SnapshotInv postcard decV0 storedCodec s) {stored : StoredSnapshot}
    {data : StateMachineData} (hi : s.install = .decoded stored data) :
    SnapshotInv postcard decV0 storedCodec { s with install := .none } := by
  have hmax := h.le_max
  rw [hi] at hmax
  refine { h with
    install_faithful := fun st d hd => ?_
    ahead_le := Nat.zero_le _
    le_max := hmax }
  rcases hd with hd | hd <;> cases hd

/-- The installed state covers what its snapshot covers. -/
theorem replaceState (h : SnapshotInv postcard decV0 storedCodec s) {stored : StoredSnapshot}
    {data : StateMachineData} (hi : s.install = .persisted stored data)
    (hnewer : s.store.data.covered ≤ stored.covered) :
    SnapshotInv postcard decV0 storedCodec
      { s with store := { s.store with data := data }, install := .none
               installed := stored :: s.installed } := by
  obtain ⟨-, hdata⟩ := h.install_faithful stored data (Or.inr hi)
  have hahead := h.ahead_le
  have hmax := h.le_max
  rw [hi] at hahead hmax
  refine { h with
    build_faithful := fun st hb => ?_
    install_faithful := fun st d hd => ?_
    ahead_le := Nat.zero_le _
    le_max := ?_
    installed_le := fun st hst => ?_ }
  · refine (h.build_faithful st hb).imp_right fun hle => ?_
    exact hdata ▸ hle.trans hnewer
  · rcases hd with hd | hd <;> cases hd
  · refine (hmax.trans (max_le hnewer le_rfl)).trans ?_
    exact hdata ▸ le_max_left ..
  · rcases List.mem_cons.mp hst with rfl | hst
    · exact hahead
    · exact h.installed_le st hst

/-- A restart loads the persisted snapshot. -/
theorem restart (h : SnapshotInv postcard decV0 storedCodec s) {store : StateMachineStore}
    (hnew : StateMachineStore.new postcard decV0 storedCodec s.store.db = .ok store) :
    SnapshotInv postcard decV0 storedCodec
      { s with store := store, build := none, install := .none, overtaken := false } ∧
      store.db = s.store.db := by
  have hloaded : store.db = s.store.db ∧ s.persisted storedCodec ≤ store.data.covered := by
    unfold StateMachineStore.new at hnew
    split at hnew
    · rename_i bytes hget
      obtain ⟨stored, rfl, hfaithful⟩ := h.record bytes hget
      rw [storedCodec.dec_enc] at hnew
      cases hdata : decodeState postcard decV0 stored.data with
      | error reason =>
          simp [hdata, bind, Except.bind] at hnew
      | ok data =>
          simp only [hdata, bind, Except.bind, pure, Except.pure] at hnew
          obtain rfl := Except.ok.inj hnew
          exact ⟨rfl, (persisted_of_get hget).trans (hfaithful.covered hdata).symm |>.le⟩
    · rename_i hget
      obtain rfl := Except.ok.inj hnew
      refine ⟨rfl, ?_⟩
      simp [SnapshotSystem.persisted, snapshotLastIndex, hget, HermesMq.covered]
  obtain ⟨hdb, hle⟩ := hloaded
  have hsame : ∀ t : SnapshotSystem, t.store = store →
      t.persisted storedCodec = s.persisted storedCodec := fun t ht => by
    rw [SnapshotSystem.persisted, SnapshotSystem.persisted, ht, hdb]
  refine ⟨⟨?_, fun _ hb => (by cases hb), fun _ hb => (by cases hb), fun _ hb => (by cases hb),
    fun st d hd => ?_, Nat.zero_le _, ?_, fun st hst => ?_⟩, hdb⟩
  · change ∀ bytes, store.db.get keySnapshot = some bytes → _
    rw [hdb]
    exact h.record
  · rcases hd with hd | hd <;> cases hd
  · rw [hsame _ rfl]
    exact hle.trans (le_max_left ..)
  · rw [hsame _ rfl]
    exact h.installed_le st hst

end SnapshotInv

end Invariant

/-! ## Runs -/

namespace SnapshotSystem

variable (postcard : Codec StateMachineData) (decV0 : Bytes → Except String StateMachineDataV0)
  (storedCodec : Codec StoredSnapshot)

/-- The persisted snapshot covers no less after each step of the run. -/
def NeverBack (s : SnapshotSystem) (evs : List SnapshotEvent) : Prop :=
  Machine.Along (step postcard decV0 storedCodec)
    (fun s _ s' => s.persisted storedCodec ≤ s'.persisted storedCodec) s evs

/-- No build that was overtaken is persisted in the run. -/
def NeverOvertaken (s : SnapshotSystem) (evs : List SnapshotEvent) : Prop :=
  Machine.Along (step postcard decV0 storedCodec)
    (fun s e _ => e = .persistBuild true → s.overtaken = false) s evs

/-- What a node receives holds the state its metadata says. -/
def Honest : SnapshotEvent → Prop
  | .receive stored => Faithful postcard decV0 stored
  | _ => True

variable {postcard decV0 storedCodec} {s s' : SnapshotSystem}

/-- Any other step keeps the invariant, and the record does not go back. -/
theorem step_ok {e : SnapshotEvent} (h : SnapshotInv postcard decV0 storedCodec s)
    (hstep : s.step postcard decV0 storedCodec e = some s') (hhonest : Honest postcard decV0 e)
    (hsafe : e = .persistBuild true → s.overtaken = false) :
    SnapshotInv postcard decV0 storedCodec s' ∧
      s.persisted storedCodec ≤ s'.persisted storedCodec := by
  cases e with
  | apply entries =>
      obtain ⟨hes, heq⟩ := Option.ite_none_right_eq_some.mp hstep
      obtain rfl := Option.some.inj heq
      exact ⟨h.apply hes, le_rfl⟩
  | cloneState =>
      obtain ⟨-, heq⟩ := Option.ite_none_right_eq_some.mp hstep
      obtain rfl := Option.some.inj heq
      exact ⟨h.cloneState, le_rfl⟩
  | persistBuild ok =>
      simp only [step] at hstep
      split at hstep
      · cases hstep
      · rename_i stored hb
        obtain rfl := Option.some.inj hstep
        cases ok with
        | true => exact h.persistBuild hb (hsafe rfl) rfl
        | false =>
            exact ⟨{ h with
              build_faithful := fun _ hb => (by cases hb)
              fresh := fun _ hb => (by cases hb)
              stale := fun _ hb => (by cases hb) }, le_rfl⟩
  | receive stored =>
      obtain ⟨hi, hstep⟩ := Option.ite_none_right_eq_some.mp hstep
      split at hstep
      · obtain rfl := Option.some.inj hstep
        exact ⟨h, le_rfl⟩
      · rename_i data hdecode
        obtain rfl := Option.some.inj hstep
        exact ⟨h.receive hi hhonest hdecode, le_rfl⟩
  | persistInstall ok =>
      simp only [step] at hstep
      split at hstep
      · rename_i stored data hi
        obtain ⟨hnewer, hstep⟩ := Option.ite_none_right_eq_some.mp hstep
        split_ifs at hstep with hok
        · obtain rfl := Option.some.inj hstep
          exact h.persistInstall hi hnewer rfl
        · obtain rfl := Option.some.inj hstep
          exact ⟨h.abandon hi, le_rfl⟩
      · cases hstep
  | replaceState =>
      simp only [step] at hstep
      split at hstep
      · rename_i stored data hi
        obtain ⟨hnewer, heq⟩ := Option.ite_none_right_eq_some.mp hstep
        obtain rfl := Option.some.inj heq
        exact ⟨h.replaceState hi hnewer, le_rfl⟩
      · cases hstep
  | restart =>
      simp only [step] at hstep
      split at hstep
      · cases hstep
      · rename_i store hnew
        obtain rfl := Option.some.inj hstep
        obtain ⟨hinv, hdb⟩ := h.restart hnew
        refine ⟨hinv, le_of_eq ?_⟩
        rw [persisted, persisted, hdb]

/-- An overtaken build takes the record back. -/
theorem step_back (h : SnapshotInv postcard decV0 storedCodec s)
    (hstep : s.step postcard decV0 storedCodec (.persistBuild true) = some s')
    (hover : s.overtaken = true) : s'.persisted storedCodec < s.persisted storedCodec := by
  simp only [step] at hstep
  split at hstep
  · cases hstep
  · rename_i stored hb
    obtain rfl := Option.some.inj hstep
    exact h.persistBuild_overtaken hb hover rfl

/-- So the record goes back at a step exactly when an overtaken build is
persisted there. -/
theorem step_persisted_le_iff {e : SnapshotEvent} (h : SnapshotInv postcard decV0 storedCodec s)
    (hstep : s.step postcard decV0 storedCodec e = some s') (hhonest : Honest postcard decV0 e) :
    s.persisted storedCodec ≤ s'.persisted storedCodec ↔
      (e = .persistBuild true → s.overtaken = false) := by
  refine ⟨fun hle he => ?_, fun hsafe => (step_ok h hstep hhonest hsafe).2⟩
  subst he
  by_contra hover
  exact absurd hle (not_le.mpr (step_back h hstep (Bool.eq_true_of_not_eq_false hover)))

end SnapshotSystem

/-- In every run in which each received snapshot holds the state its
metadata says, the persisted snapshot goes back exactly when a build is
persisted that an install has overtaken. When none is, the persisted
snapshot covers every snapshot installed so far. -/
theorem snapshot_never_back_iff {postcard : Codec StateMachineData}
    {decV0 : Bytes → Except String StateMachineDataV0} {storedCodec : Codec StoredSnapshot}
    {evs : List SnapshotEvent} {s : SnapshotSystem}
    (hrun : SnapshotSystem.run postcard decV0 storedCodec {} evs = some s)
    (hhonest : ∀ stored, .receive stored ∈ evs → Faithful postcard decV0 stored) :
    (SnapshotSystem.NeverBack postcard decV0 storedCodec {} evs ↔
      SnapshotSystem.NeverOvertaken postcard decV0 storedCodec {} evs) ∧
    (SnapshotSystem.NeverOvertaken postcard decV0 storedCodec {} evs →
      ∀ stored ∈ s.installed, stored.covered ≤ s.persisted storedCodec) := by
  have hstart : SnapshotInv postcard decV0 storedCodec {} := .empty_start
  have hevs : ∀ e ∈ evs, SnapshotSystem.Honest postcard decV0 e := fun e he => by
    cases e with
    | receive stored => exact hhonest stored he
    | _ => trivial
  constructor
  · exact Machine.along_congr
      (fun _ e _ he h hstep => SnapshotSystem.step_persisted_le_iff h hstep (hevs e he))
      (fun _ e _ he h hstep hsafe => (SnapshotSystem.step_ok h hstep (hevs e he) hsafe).1) hstart
  · intro hsafe
    have halong := (Machine.along_of_forall fun _ e _ he _ => hevs e he).and hsafe
    exact (Machine.run_invariant (fun _ _ _ h hstep ⟨hhonest, hsafe⟩ =>
      (SnapshotSystem.step_ok h hstep hhonest hsafe).1) hstart halong hrun).installed_le

deriving instance Countable for SnapshotMeta, StoredSnapshot

/-- The state after a log of two blank entries. -/
def secondState : StateMachineData := { lastApplied := some ⟨⟨1, 1⟩, 2⟩ }

/-- A codec that can be evaluated on that state. -/
noncomputable def secondCodec : Codec StateMachineData :=
  (Codec.ofCountable StateMachineData).shorten [secondState]

/-- Its snapshot, as another node sends it. -/
def secondSnapshot : StoredSnapshot where
  snapshotMeta := { lastLogId := some ⟨⟨1, 1⟩, 2⟩, lastMembership := {}, snapshotId := "2-1" }
  data := snapshotFormat

/-- The snapshot of the state after the first entry. -/
noncomputable def firstSnapshot : StoredSnapshot where
  snapshotMeta := { lastLogId := some ⟨⟨1, 1⟩, 1⟩, lastMembership := {}, snapshotId := "1-1" }
  data := encodeState secondCodec { lastApplied := some ⟨⟨1, 1⟩, 1⟩ }

/-- A build that is persisted before the install. -/
def buildThenInstall : List SnapshotEvent :=
  [.apply [blankAt 1], .cloneState, .persistBuild true, .receive secondSnapshot,
    .persistInstall true, .replaceState]

theorem snapshot_never_back_build_then_install :
    ∃ s, SnapshotSystem.run secondCodec (fun _ => .error "old layout") (.ofCountable _) {}
        buildThenInstall = some s ∧
      SnapshotSystem.NeverBack secondCodec (fun _ => .error "old layout") (.ofCountable _) {}
        buildThenInstall ∧
      s.installed = [secondSnapshot] ∧
      secondSnapshot.covered ≤ s.persisted (.ofCountable _) := by
  let s : SnapshotSystem :=
    { store :=
        { data := secondState, snapshotSeq := 1
          db := persistSnapshot (.ofCountable _) (persistSnapshot (.ofCountable _) {} firstSnapshot)
            secondSnapshot }
      installed := [secondSnapshot] }
  have hrun : SnapshotSystem.run secondCodec (fun _ => .error "old layout") (.ofCountable _) {}
      buildThenInstall = some s := rfl
  have hfaithful : Faithful secondCodec (fun _ => .error "old layout") secondSnapshot := by
    rintro data ⟨⟩
    rfl
  obtain ⟨hiff, hinstalled⟩ := snapshot_never_back_iff hrun (by
    intro stored hmem
    obtain rfl : stored = secondSnapshot := by simpa [buildThenInstall] using hmem
    exact hfaithful)
  have hsafe : SnapshotSystem.NeverOvertaken secondCodec (fun _ => .error "old layout")
      (.ofCountable _) {} buildThenInstall :=
    ⟨fun h => (by cases h), fun h => (by cases h), fun _ => rfl, fun h => (by cases h),
      fun h => (by cases h), fun h => (by cases h), trivial⟩
  exact ⟨s, hrun, hiff.mpr hsafe, rfl, hinstalled hsafe _ (List.mem_singleton_self _)⟩

/-- The builder clones the state at index 1, an install persists the
snapshot at index 2, and then the build persists its own. -/
theorem snapshot_goes_back :
    ∃ (postcard : Codec StateMachineData) (decV0 : Bytes → Except String StateMachineDataV0)
      (storedCodec : Codec StoredSnapshot) (s : SnapshotSystem),
      SnapshotSystem.run postcard decV0 storedCodec {}
        [.apply [blankAt 1], .cloneState, .receive secondSnapshot, .persistInstall true,
          .replaceState, .persistBuild true] = some s ∧
      s.installed = [secondSnapshot] ∧ secondSnapshot.covered = covered (some 2) ∧
      s.persisted storedCodec = covered (some 1) := by
  refine ⟨secondCodec, fun _ => .error "old layout", .ofCountable _,
    { store :=
        { data := secondState, snapshotSeq := 1
          db := persistSnapshot (.ofCountable _) (persistSnapshot (.ofCountable _) {}
            secondSnapshot) firstSnapshot }
      installed := [secondSnapshot] }, rfl, rfl, rfl, ?_⟩
  exact persisted_of_get (show _ = some (Codec.enc _ firstSnapshot) from rfl)

end HermesMq
