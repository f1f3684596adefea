import HermesMq.InstallSnapshot

/-!
# Replicas agree

Raft gives every node the same committed log. What a node makes of it goes
through more than `apply`: snapshots are built while entries are applied,
sent to other nodes, installed there over whatever state they have, read
back after a restart, and sent on. A message with a snapshot can arrive
late, twice, or at a node that is ahead of it, and a node can lose its disk.

Through all of that a node's state is what the log up to some entry leads
to, and no two nodes answer one entry differently (`replicas_agree`).
-/

namespace HermesMq

/-! ## The log up to an entry -/

/-- The state that the first `k` entries of the log lead to. -/
def replay (log : List Entry) (k : Nat) : StateMachineData :=
  (StateMachineData.apply {} (log.take k)).1

/-- What the entries of the log are answered. -/
def answersTo (log : List Entry) : List AppResponse := (StateMachineData.apply {} log).2

/-- Every entry stands at its own index. -/
def Indexed (log : List Entry) : Prop := ∀ k (e : Entry), log[k]? = some e → e.logId.index = k

theorem replay_append {log : List Entry} {k : Nat} (h : k ≤ log.length) (more : List Entry) :
    replay (log ++ more) k = replay log k := by
  rw [replay, List.take_append_of_le_length h, replay]

theorem answersTo_append (log more : List Entry) : answersTo log <+: answersTo (log ++ more) := by
  rw [answersTo, answersTo, StateMachineData.apply_append]
  exact List.prefix_append ..

theorem apply_take (d : StateMachineData) (entries : List Entry) (n : Nat) :
    (d.apply (entries.take n)).2 = (d.apply entries).2.take n := by
  induction entries generalizing d n with
  | nil => cases n <;> rfl
  | cons e rest ih =>
      cases n with
      | zero => rfl
      | succ n => exact congrArg (_ :: ·) (ih _ n)

theorem apply_drop (d : StateMachineData) (entries : List Entry) (k : Nat) :
    ((d.apply (entries.take k)).1.apply (entries.drop k)).2 = (d.apply entries).2.drop k := by
  induction entries generalizing d k with
  | nil => cases k <;> rfl
  | cons e rest ih =>
      cases k with
      | zero => rfl
      | succ k => exact ih _ k

/-- Applying the next entries of the log. -/
theorem apply_replay (log : List Entry) (k n : Nat) :
    (replay log k).apply ((log.drop k).take n) =
      (replay log (k + n), ((answersTo log).drop k).take n) := by
  refine Prod.ext ?_ ?_
  · have hnext := StateMachineData.apply_append {} (log.take k) ((log.drop k).take n)
    rw [← List.take_add] at hnext
    exact (congrArg Prod.fst hnext).symm
  · exact (apply_take _ _ n).trans (congrArg (List.take n) (apply_drop {} log k))

theorem lastApplied_apply (d : StateMachineData) (entries : List Entry) :
    (d.apply entries).1.lastApplied = (entries.getLast?.map (·.logId)).or d.lastApplied := by
  induction entries generalizing d with
  | nil => rfl
  | cons e rest ih =>
      have hentry : (d.applyEntry e).1.lastApplied = some e.logId := by
        unfold StateMachineData.applyEntry
        cases e.payload <;> rfl
      refine (ih (d.applyEntry e).1).trans ?_
      rw [hentry, List.getLast?_cons]
      cases rest.getLast? <;> rfl

theorem covered_replay {log : List Entry} (h : Indexed log) {k : Nat} (hk : k ≤ log.length) :
    (replay log k).covered = k := by
  cases k with
  | zero => rfl
  | succ k =>
      have hlast : (log.take (k + 1)).getLast? = some log[k] := by
        rw [List.getLast?_take, if_neg (Nat.succ_ne_zero k), Nat.add_sub_cancel,
          List.getElem?_eq_getElem hk, Option.some_or]
      rw [StateMachineData.covered, replay, lastApplied_apply, hlast]
      exact congrArg Nat.succ (h k _ (List.getElem?_eq_getElem hk))

/-- Lowering the watermarks changes no counter. -/
theorem Queue.Bounded.of_normalize {q : Queue} (h : q.normalize.Bounded) : q.Bounded where
  lease := h.lease
  offset ht := by
    have hoffset := h.offset ((OrdMap.get?_mapVals ..).trans (congrArg (Option.map _) ht))
    exact hoffset
  polls ht hg := by
    have hpolls := h.polls ((OrdMap.get?_mapVals ..).trans (congrArg (Option.map _) ht))
      ((OrdMap.get?_mapVals ..).trans (congrArg (Option.map _) hg))
    simp only at hpolls
    split_ifs at hpolls <;> exact hpolls

/-- A snapshot of such a state is read as that state or not at all. -/
theorem decodeState_replay (postcard : Codec StateMachineData)
    (decV0 : Bytes → Except String StateMachineDataV0) (log : List Entry) (k : Nat)
    (data : StateMachineData) :
    decodeState postcard decV0 (encodeState postcard (replay log k)) = .ok data ↔
      data = replay log k ∧ data.queue.validate = .ok () := by
  constructor
  · intro h
    have hv := decodeState_valid postcard decV0 h
    have hparse := parseState_encodeState postcard decV0 (replay log k)
    simp only [decodeState, hparse, bind, Except.bind] at h
    split at h
    · cases h
    · cases h
      have hb : (replay log k).queue.Bounded := (validate_ok_iff.mp hv).1.of_normalize
      have hnorm : (replay log k).queue.normalize = (replay log k).queue :=
        Queue.normalize_of_valid (validate_ok_iff.mp (StateMachineData.apply_valid hb)).2
      refine ⟨?_, hv⟩
      rw [hnorm]
  · rintro ⟨rfl, hv⟩
    exact decodeState_encodeState postcard decV0 hv

/-! ## The cluster -/

structure Cluster (ι : Type) where
  /-- The entries Raft has committed. -/
  log : List Entry := []
  node : ι → SnapshotSystem := fun _ => {}
  /-- The snapshots that nodes have sent; the network keeps them. -/
  sent : List StoredSnapshot := []
  /-- Which node answered which entry what. -/
  answers : List (ι × Nat × AppResponse) := []

inductive ClusterEvent (ι : Type) where
  /-- Raft commits another entry. -/
  | commit (entry : Entry)
  /-- A node applies the next `count` committed entries. -/
  | apply (i : ι) (count : Nat)
  /-- A node sends its current snapshot to a node that is far behind. -/
  | send (i : ι)
  /-- A node begins to install a snapshot that was sent. -/
  | deliver (i : ι) (stored : StoredSnapshot)
  /-- A node builds, persists or installs a snapshot, or restarts. -/
  | own (i : ι) (event : SnapshotEvent)
  /-- A node loses its disk. -/
  | wipe (i : ι)

/-- The steps of a node that need nothing from outside. -/
def SnapshotEvent.isOwn : SnapshotEvent → Bool
  | .cloneState | .persistBuild _ | .persistInstall _ | .replaceState | .restart => true
  | .apply _ | .receive _ => false

namespace Cluster

variable {ι : Type} [DecidableEq ι] (postcard : Codec StateMachineData)
  (decV0 : Bytes → Except String StateMachineDataV0) (storedCodec : Codec StoredSnapshot)

def put (c : Cluster ι) (i : ι) (s : SnapshotSystem) : Cluster ι :=
  { c with node := Function.update c.node i s }

/-- The committed entries that the node applies next. -/
def next (c : Cluster ι) (i : ι) (count : Nat) : List Entry :=
  (c.log.drop (c.node i).store.data.covered).take count

/-- The answers of a node to entries from index `k` on. -/
def answering (i : ι) (k : Nat) (responses : List AppResponse) : List (ι × Nat × AppResponse) :=
  (responses.zipIdx k).map fun (r, index) => (i, index, r)

def step (c : Cluster ι) : ClusterEvent ι → Option (Cluster ι)
  | .commit entry =>
      if entry.logId.index = c.log.length then some { c with log := c.log ++ [entry] } else none
  | .apply i count =>
      let data := (c.node i).store.data
      let given := answering i data.covered (data.apply (c.next i count)).2
      ((c.node i).step postcard decV0 storedCodec (.apply (c.next i count))).map fun s =>
        { c.put i s with answers := c.answers ++ given }
  | .send i =>
      match (c.node i).store.getCurrentSnapshot storedCodec with
      | .ok (some current) => some { c with sent := ⟨current.snapshotMeta, current.snapshot⟩ :: c.sent }
      | .ok none | .error _ => some c
  | .deliver i stored =>
      if stored ∈ c.sent then
        ((c.node i).step postcard decV0 storedCodec (.receive stored)).map (c.put i)
      else none
  | .own i event =>
      if event.isOwn then ((c.node i).step postcard decV0 storedCodec event).map (c.put i)
      else none
  | .wipe i => some (c.put i {})

def run (c : Cluster ι) (evs : List (ClusterEvent ι)) : Option (Cluster ι) :=
  Machine.run (step postcard decV0 storedCodec) c evs

end Cluster

/-! ## What the log vouches for -/

section Invariant

variable (postcard : Codec StateMachineData) (decV0 : Bytes → Except String StateMachineDataV0)
  (storedCodec : Codec StoredSnapshot)

/-- The state is that of the log up to some entry. -/
def OnLog (log : List Entry) (data : StateMachineData) : Prop :=
  ∃ k ≤ log.length, data = replay log k

/-- The snapshot is one of the log up to some entry, whoever decodes it. -/
def Vouched (log : List Entry) (stored : StoredSnapshot) : Prop :=
  ∃ k ≤ log.length, ∀ data, decodeState postcard decV0 stored.data = .ok data ↔
    data = replay log k ∧ data.queue.validate = .ok ()

/-- Everything a node has, in memory, on its disk and half done. -/
structure NodeInv (log : List Entry) (s : SnapshotSystem) : Prop where
  data : OnLog log s.store.data
  record : ∀ bytes, s.store.db.get keySnapshot = some bytes →
    ∃ stored, bytes = storedCodec.enc stored ∧ Vouched postcard decV0 log stored
  build : ∀ stored, s.build = some stored → Vouched postcard decV0 log stored
  install : ∀ stored data, s.install = .decoded stored data ∨ s.install = .persisted stored data →
    Vouched postcard decV0 log stored ∧ OnLog log data

structure ClusterInv {ι : Type} (c : Cluster ι) : Prop where
  indexed : Indexed c.log
  node : ∀ i, NodeInv postcard decV0 storedCodec c.log (c.node i)
  sent : ∀ stored ∈ c.sent, Vouched postcard decV0 c.log stored
  answers : ∀ x ∈ c.answers, (answersTo c.log)[x.2.1]? = some x.2.2

end Invariant

section Steps

variable {postcard : Codec StateMachineData} {decV0 : Bytes → Except String StateMachineDataV0}
  {storedCodec : Codec StoredSnapshot} {log : List Entry} {s s' : SnapshotSystem}
  {data : StateMachineData} {stored : StoredSnapshot}

theorem OnLog.append (h : OnLog log data) (more : List Entry) : OnLog (log ++ more) data := by
  obtain ⟨k, hk, rfl⟩ := h
  exact ⟨k, hk.trans (List.length_append ▸ Nat.le_add_right ..), (replay_append hk more).symm⟩

theorem Vouched.append (h : Vouched postcard decV0 log stored) (more : List Entry) :
    Vouched postcard decV0 (log ++ more) stored := by
  obtain ⟨k, hk, hdecode⟩ := h
  refine ⟨k, hk.trans (List.length_append ▸ Nat.le_add_right ..), fun data => ?_⟩
  rw [replay_append hk, hdecode]

/-- What is decoded from a snapshot that the log vouches for is on the log. -/
theorem Vouched.onLog (h : Vouched postcard decV0 log stored)
    (hdecode : decodeState postcard decV0 stored.data = .ok data) : OnLog log data := by
  obtain ⟨k, hk, hiff⟩ := h
  exact ⟨k, hk, ((hiff data).mp hdecode).1⟩

theorem OnLog.cloneState {store : StateMachineStore} (h : OnLog log store.data) :
    Vouched postcard decV0 log (store.cloneState postcard).2 := by
  obtain ⟨k, hk, hdata⟩ := h
  refine ⟨k, hk, fun data => ?_⟩
  rw [← decodeState_replay postcard decV0 log k data, ← hdata]
  rfl

namespace NodeInv

theorem empty (log : List Entry) : NodeInv postcard decV0 storedCodec log {} where
  data := ⟨0, Nat.zero_le _, rfl⟩
  record bytes h := by cases h
  build stored h := by cases h
  install stored data h := by rcases h with h | h <;> cases h

theorem append (h : NodeInv postcard decV0 storedCodec log s) (more : List Entry) :
    NodeInv postcard decV0 storedCodec (log ++ more) s where
  data := h.data.append more
  record bytes hbytes := by
    obtain ⟨stored, heq, hstored⟩ := h.record bytes hbytes
    exact ⟨stored, heq, hstored.append more⟩
  build stored hb := (h.build stored hb).append more
  install stored data hi := ⟨(h.install stored data hi).1.append more,
    (h.install stored data hi).2.append more⟩

theorem apply (h : NodeInv postcard decV0 storedCodec log s) (hlog : Indexed log) (count : Nat) :
    OnLog log (s.store.data.apply ((log.drop s.store.data.covered).take count)).1 := by
  obtain ⟨k, hk, hdata⟩ := h.data
  rw [hdata, covered_replay hlog hk, apply_replay]
  by_cases hle : k + count ≤ log.length
  · exact ⟨k + count, hle, rfl⟩
  · refine ⟨log.length, le_rfl, ?_⟩
    rw [replay, replay, List.take_of_length_le (by omega), List.take_length]

/-- After either writer's write. -/
theorem record_put {db : Storage} (h : Vouched postcard decV0 log stored) {bytes : Bytes}
    (hbytes : (persistSnapshot storedCodec db stored).get keySnapshot = some bytes) :
    ∃ stored, bytes = storedCodec.enc stored ∧ Vouched postcard decV0 log stored := by
  rw [get_persistSnapshot] at hbytes
  exact ⟨stored, (Option.some.inj hbytes).symm, h⟩

theorem new (h : NodeInv postcard decV0 storedCodec log s) {store : StateMachineStore}
    (hnew : StateMachineStore.new postcard decV0 storedCodec s.store.db = .ok store) :
    OnLog log store.data ∧ store.db = s.store.db := by
  unfold StateMachineStore.new at hnew
  cases hget : s.store.db.get keySnapshot with
  | none =>
      rw [hget] at hnew
      cases hnew
      exact ⟨⟨0, Nat.zero_le _, rfl⟩, rfl⟩
  | some bytes =>
      obtain ⟨stored, rfl, hstored⟩ := h.record bytes hget
      simp only [hget, storedCodec.dec_enc, bind, Except.bind] at hnew
      cases hdecode : decodeState postcard decV0 stored.data with
      | error reason =>
          rw [hdecode] at hnew
          cases hnew
      | ok data =>
          rw [hdecode] at hnew
          cases hnew
          exact ⟨hstored.onLog hdecode, rfl⟩

/-- A snapshot of a state whose counters are within `maxCounter` is read. -/
theorem restarts (h : NodeInv postcard decV0 storedCodec log s)
    (hb : ∀ k ≤ log.length, (replay log k).queue.Bounded) :
    ∃ store, StateMachineStore.new postcard decV0 storedCodec s.store.db = .ok store := by
  unfold StateMachineStore.new
  cases hget : s.store.db.get keySnapshot with
  | none => exact ⟨_, rfl⟩
  | some bytes =>
      obtain ⟨stored, rfl, k, hk, hiff⟩ := h.record bytes hget
      have hdecode := (hiff (replay log k)).mpr ⟨rfl, StateMachineData.apply_valid (hb k hk)⟩
      simp only [storedCodec.dec_enc, hdecode, bind, Except.bind]
      exact ⟨_, rfl⟩

/-- The steps of a node keep it on the log. -/
theorem step (h : NodeInv postcard decV0 storedCodec log s) (hlog : Indexed log)
    {event : SnapshotEvent} (hstep : s.step postcard decV0 storedCodec event = some s')
    (happly : ∀ entries, event = .apply entries →
      ∃ count, entries = (log.drop s.store.data.covered).take count)
    (hreceive : ∀ stored, event = .receive stored → Vouched postcard decV0 log stored) :
    NodeInv postcard decV0 storedCodec log s' := by
  cases event with
  | apply entries =>
      obtain ⟨count, rfl⟩ := happly entries rfl
      simp only [SnapshotSystem.step] at hstep
      split_ifs at hstep
      cases hstep
      exact { h with data := h.apply hlog count }
  | cloneState =>
      simp only [SnapshotSystem.step] at hstep
      split_ifs at hstep
      cases hstep
      exact { h with build := fun stored hb => Option.some.inj hb ▸ h.data.cloneState }
  | persistBuild ok =>
      simp only [SnapshotSystem.step] at hstep
      cases hb : s.build with
      | none =>
          rw [hb] at hstep
          cases hstep
      | some stored =>
          rw [hb] at hstep
          cases hstep
          refine { h with record := fun bytes hbytes => ?_, build := fun stored hb => by cases hb }
          cases ok with
          | false => exact h.record bytes hbytes
          | true => exact record_put (h.build stored hb) hbytes
  | receive stored =>
      have hvouched := hreceive stored rfl
      simp only [SnapshotSystem.step] at hstep
      split_ifs at hstep
      cases hdecode : decodeState postcard decV0 stored.data with
      | error reason =>
          rw [hdecode] at hstep
          exact Option.some.inj hstep ▸ h
      | ok data =>
          simp only [hdecode] at hstep
          cases hstep
          refine { h with install := fun stored' data' hi => ?_ }
          rcases hi with hi | hi
          · cases hi
            exact ⟨hvouched, hvouched.onLog hdecode⟩
          · cases hi
  | persistInstall ok =>
      simp only [SnapshotSystem.step] at hstep
      cases hi : s.install with
      | none =>
          rw [hi] at hstep
          cases hstep
      | persisted stored data =>
          rw [hi] at hstep
          cases hstep
      | decoded stored data =>
          simp only [hi] at hstep
          obtain ⟨hvouched, hdata⟩ := h.install stored data (Or.inl hi)
          split_ifs at hstep
          · cases hstep
            refine { h with
              record := fun bytes hbytes => record_put hvouched hbytes
              install := fun stored' data' hi => ?_ }
            rcases hi with hi | hi
            · cases hi
            · cases hi
              exact ⟨hvouched, hdata⟩
          · cases hstep
            exact { h with install := fun _ _ hi => by rcases hi with hi | hi <;> cases hi }
  | replaceState =>
      simp only [SnapshotSystem.step] at hstep
      cases hi : s.install with
      | none =>
          rw [hi] at hstep
          cases hstep
      | decoded stored data =>
          rw [hi] at hstep
          cases hstep
      | persisted stored data =>
          simp only [hi] at hstep
          split_ifs at hstep
          cases hstep
          exact { h with
            data := (h.install stored data (Or.inr hi)).2
            install := fun _ _ hi => by rcases hi with hi | hi <;> cases hi }
  | restart =>
      simp only [SnapshotSystem.step] at hstep
      cases hnew : StateMachineStore.new postcard decV0 storedCodec s.store.db with
      | error reason =>
          rw [hnew] at hstep
          cases hstep
      | ok store =>
          rw [hnew] at hstep
          cases hstep
          obtain ⟨hdata, hdb⟩ := h.new hnew
          exact { data := hdata
                  record := fun bytes hbytes => h.record bytes (hdb ▸ hbytes)
                  build := fun _ hb => by cases hb
                  install := fun _ _ hi => by rcases hi with hi | hi <;> cases hi }

end NodeInv

namespace ClusterInv

variable {ι : Type} {c c' : Cluster ι}

theorem commit (h : ClusterInv postcard decV0 storedCodec c) {entry : Entry}
    (hindex : entry.logId.index = c.log.length) :
    ClusterInv postcard decV0 storedCodec { c with log := c.log ++ [entry] } where
  indexed k e he := by
    rw [List.getElem?_append] at he
    split_ifs at he with hk
    · exact h.indexed k e he
    · obtain ⟨hlt, rfl⟩ := List.getElem?_eq_some_iff.mp he
      rw [List.length_singleton] at hlt
      simp only [List.getElem_singleton]
      omega
  node i := (h.node i).append [entry]
  sent stored hstored := (h.sent stored hstored).append [entry]
  answers x hx := by
    obtain ⟨more, hmore⟩ := answersTo_append c.log [entry]
    rw [← hmore]
    exact List.getElem?_append_left (List.getElem?_eq_some_iff.mp (h.answers x hx)).1 ▸ h.answers x hx

theorem put [DecidableEq ι] (h : ClusterInv postcard decV0 storedCodec c) {i : ι}
    (hs : NodeInv postcard decV0 storedCodec c.log s) :
    ClusterInv postcard decV0 storedCodec (c.put i s) := by
  refine { h with node := fun j => ?_ }
  change NodeInv postcard decV0 storedCodec c.log (Function.update c.node i s j)
  rw [Function.update_apply]
  split_ifs
  · exact hs
  · exact h.node j

/-- A node answers the entries of the log as the log does. -/
theorem answering (h : ClusterInv postcard decV0 storedCodec c) (i : ι) (count : Nat)
    {x : ι × Nat × AppResponse}
    (hx : x ∈ Cluster.answering i (c.node i).store.data.covered
      ((c.node i).store.data.apply (c.next i count)).2) :
    (answersTo c.log)[x.2.1]? = some x.2.2 := by
  obtain ⟨k, hk, hdata⟩ := (h.node i).data
  rw [Cluster.next, hdata, covered_replay h.indexed hk, apply_replay, Cluster.answering] at hx
  obtain ⟨⟨r, index⟩, hmem, rfl⟩ := List.mem_map.mp hx
  obtain ⟨hle, hr⟩ := List.mk_mem_zipIdx_iff_le_and_getElem?_sub.mp hmem
  rw [List.getElem?_take] at hr
  split_ifs at hr
  rwa [List.getElem?_drop, Nat.add_sub_cancel' hle] at hr

theorem step [DecidableEq ι] (h : ClusterInv postcard decV0 storedCodec c)
    {event : ClusterEvent ι} (hstep : c.step postcard decV0 storedCodec event = some c') :
    ClusterInv postcard decV0 storedCodec c' := by
  cases event with
  | commit entry =>
      simp only [Cluster.step] at hstep
      split_ifs at hstep with hindex
      cases hstep
      exact h.commit hindex
  | apply i count =>
      obtain ⟨s, hs, rfl⟩ := Option.map_eq_some_iff.mp hstep
      have hnode := (h.node i).step h.indexed hs
        (fun entries he => ⟨count, (SnapshotEvent.apply.inj he).symm⟩) (fun _ he => by cases he)
      refine { h.put hnode with answers := fun x hx => ?_ }
      rcases List.mem_append.mp hx with hx | hx
      · exact h.answers x hx
      · exact h.answering i count hx
  | send i =>
      simp only [Cluster.step, StateMachineStore.getCurrentSnapshot] at hstep
      cases hget : (c.node i).store.db.get keySnapshot with
      | none =>
          rw [hget] at hstep
          exact Option.some.inj hstep ▸ h
      | some bytes =>
          obtain ⟨stored, rfl, hstored⟩ := (h.node i).record bytes hget
          simp only [hget, storedCodec.dec_enc, bind, Except.bind] at hstep
          cases hstep
          exact { h with sent := List.forall_mem_cons.mpr ⟨hstored, h.sent⟩ }
  | deliver i stored =>
      simp only [Cluster.step] at hstep
      split_ifs at hstep with hsent
      obtain ⟨s, hs, rfl⟩ := Option.map_eq_some_iff.mp hstep
      exact h.put ((h.node i).step h.indexed hs (fun _ he => by cases he)
        fun _ he => SnapshotEvent.receive.inj he ▸ h.sent stored hsent)
  | own i event =>
      simp only [Cluster.step] at hstep
      split_ifs at hstep with hown
      obtain ⟨s, hs, rfl⟩ := Option.map_eq_some_iff.mp hstep
      refine h.put ((h.node i).step h.indexed hs ?_ ?_)
      · rintro entries rfl
        cases hown
      · rintro stored rfl
        cases hown
  | wipe i =>
      cases hstep
      exact h.put (.empty c.log)

end ClusterInv

end Steps

theorem ClusterInv.start {ι : Type} (postcard : Codec StateMachineData)
    (decV0 : Bytes → Except String StateMachineDataV0) (storedCodec : Codec StoredSnapshot) :
    ClusterInv postcard decV0 storedCodec ({} : Cluster ι) where
  indexed k e he := by cases he
  node i := .empty []
  sent stored hstored := absurd hstored List.not_mem_nil
  answers x hx := absurd hx List.not_mem_nil

/-- However the steps of the nodes interleave: two nodes that have applied
the same number of entries have the same state, namely the one the log leads
to; an entry is answered alike by every node that applies it, also by one
that applies it again after a restart; and while no counter of the log is
above `maxCounter`, every node restarts into a state of the log. -/
theorem replicas_agree {ι : Type} [DecidableEq ι] {postcard : Codec StateMachineData}
    {decV0 : Bytes → Except String StateMachineDataV0} {storedCodec : Codec StoredSnapshot}
    {evs : List (ClusterEvent ι)} {c : Cluster ι}
    (hrun : Cluster.run postcard decV0 storedCodec {} evs = some c) :
    (∀ i, (c.node i).store.data = replay c.log (c.node i).store.data.covered ∧
      (c.node i).store.data.covered ≤ c.log.length) ∧
    (∀ i j, (c.node i).store.data.covered = (c.node j).store.data.covered →
      (c.node i).store.data = (c.node j).store.data) ∧
    (∀ i j k r r', (i, k, r) ∈ c.answers → (j, k, r') ∈ c.answers → r = r') ∧
    ((∀ k ≤ c.log.length, (replay c.log k).queue.Bounded) → ∀ i, ∃ store,
      StateMachineStore.new postcard decV0 storedCodec (c.node i).store.db = .ok store ∧
        store.data = replay c.log store.data.covered) := by
  have hinv : ClusterInv postcard decV0 storedCodec c :=
    Machine.run_keeps (fun _ _ _ h hstep => h.step hstep) (.start ..) hrun
  have hdata : ∀ {data}, OnLog c.log data →
      data = replay c.log data.covered ∧ data.covered ≤ c.log.length := by
    rintro data ⟨k, hk, rfl⟩
    rw [covered_replay hinv.indexed hk]
    exact ⟨rfl, hk⟩
  have hnodes := fun i => hdata (hinv.node i).data
  refine ⟨hnodes, fun i j hij => ?_, fun i j k r r' hr hr' => ?_, fun hb i => ?_⟩
  · rw [(hnodes i).1, (hnodes j).1, hij]
  · have hfirst : (answersTo c.log)[k]? = some r := hinv.answers _ hr
    have hsecond : (answersTo c.log)[k]? = some r' := hinv.answers _ hr'
    exact Option.some.inj (hfirst.symm.trans hsecond)
  · obtain ⟨store, hnew⟩ := (hinv.node i).restarts hb
    exact ⟨store, hnew, (hdata ((hinv.node i).new hnew).1).1⟩

/-- A topic and a message. -/
def sharedLog : List Entry :=
  [⟨⟨⟨1, 1⟩, 0⟩, .normal (.createTopic "t")⟩,
    ⟨⟨⟨1, 1⟩, 1⟩, .normal (.produce "t" .default .raw [7] "" 0 5)⟩]

def sharedState : StateMachineData where
  lastApplied := some ⟨⟨1, 1⟩, 1⟩
  queue := { topics := .ofList [("t", { nextOffset := 1
                                        messages := .ofList [(0, ⟨0, .default, .raw, [7], 5⟩)] })] }

def sharedSnapshot : StoredSnapshot where
  snapshotMeta := { lastLogId := some ⟨⟨1, 1⟩, 1⟩, lastMembership := {}, snapshotId := "1-1" }
  data := snapshotFormat

/-- One node applies the log and sends its snapshot, the other installs it,
the first restarts from it, and the second loses its disk and applies the
log itself. -/
def sharing : List (ClusterEvent Bool) :=
  sharedLog.map .commit ++
    [.apply false 2, .own false .cloneState, .own false (.persistBuild true), .send false,
      .apply true 1, .deliver true sharedSnapshot, .own true (.persistInstall true),
      .own true .replaceState, .own false .restart, .wipe true, .apply true 2]

theorem replicas_agree_sharing :
    ∃ (postcard : Codec StateMachineData) (storedCodec : Codec StoredSnapshot) (c : Cluster Bool),
      Cluster.run postcard (fun _ => .error "old layout") storedCodec {} sharing = some c ∧
        (c.node true).store.data = replay sharedLog 2 ∧
        (c.node false).store.data = (c.node true).store.data ∧ c.answers.length = 5 := by
  let postcard := (Codec.ofCountable StateMachineData).shorten [sharedState]
  let storedCodec := (Codec.ofCountable StoredSnapshot).shorten [sharedSnapshot]
  have hlast : (Cluster.run postcard (fun _ => .error "old layout") storedCodec
      ({} : Cluster Bool) sharing).map (fun c => ((c.node true).store.data,
        (c.node false).store.data.covered, c.answers.length)) = some (replay sharedLog 2, 2, 5) :=
    rfl
  obtain ⟨c, hrun, hc⟩ := Option.map_eq_some_iff.mp hlast
  obtain ⟨hdata, hcovered, hanswers⟩ : (c.node true).store.data = replay sharedLog 2 ∧
      (c.node false).store.data.covered = 2 ∧ c.answers.length = 5 := by
    simpa only [Prod.mk.injEq] using hc
  refine ⟨postcard, storedCodec, c, hrun, hdata, ?_, hanswers⟩
  exact (replicas_agree hrun).2.1 false true (by rw [hcovered, hdata]; rfl)

end HermesMq
