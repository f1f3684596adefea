import HermesMq.AckCommute
import HermesMq.ProduceBatch
import Mathlib.Data.List.Perm.Basic

/-!
# Batched acks

The client port collects acks and nacks, groups them by topic, group and
kind, and writes one request for each group. Jobs of different groups are
reordered by that, and the acks of one group reclaim once where they would
have reclaimed one by one. Neither shows in the state, in whatever order
the groups are written, unless a lease is both acked and nacked
(`ack_groups_any_order`).
-/

namespace HermesMq

/-! ## The client port -/

/-- An ack or nack that waits for the batcher, and where its reply goes:
those of a subscription want none. -/
structure AckJob where
  topic : TopicId
  group : GroupId
  leaseId : LeaseId
  nack : Bool
  reply : Option Nat
deriving DecidableEq

/-- What jobs are grouped by: topic, group and whether they are nacks. -/
abbrev AckKey := TopicId ×ₗ GroupId ×ₗ Bool

namespace AckKey

def topic (key : AckKey) : TopicId := (ofLex key).1

def group (key : AckKey) : GroupId := (ofLex (ofLex key).2).1

def nack (key : AckKey) : Bool := (ofLex (ofLex key).2).2

/-- The request for one lease. -/
def one (key : AckKey) (leaseId : LeaseId) : AppRequest :=
  match nack key with
  | true => .nack (topic key) (group key) leaseId
  | false => .ack (topic key) (group key) leaseId

/-- The request `write_ack_groups` makes for a group. -/
def many (key : AckKey) (leaseIds : List LeaseId) : AppRequest :=
  match nack key with
  | true => .nackMany (topic key) (group key) leaseIds
  | false => .ackMany (topic key) (group key) leaseIds

end AckKey

/-- Lease ids and where the replies go. -/
abbrev AckGroup := List LeaseId × List Nat

def AckJob.key (job : AckJob) : AckKey := toLex (job.topic, toLex (job.group, job.nack))

/-- The job as a request of its own. -/
def AckJob.request (job : AckJob) : AppRequest := AckKey.one job.key job.leaseId

/-- One round of the grouping loop of `ack_batcher`. -/
def addAckJob (groups : OrdMap AckKey AckGroup) (job : AckJob) : OrdMap AckKey AckGroup :=
  let entry := (groups.get? job.key).getD ([], [])
  groups.insert job.key (entry.1 ++ [job.leaseId], entry.2 ++ job.reply.toList)

def groupAckJobs (jobs : List AckJob) : OrdMap AckKey AckGroup := jobs.foldl addAckJob ∅

/-- Write the groups in the order of the list; `write_ack_groups` is
called with the entries of the map. -/
def writeAckGroups (q : Queue) : List (AckKey × AckGroup) → Queue × List (Nat × Response)
  | [] => (q, [])
  | (key, leaseIds, replies) :: rest =>
      let (q, response) := q.apply (AckKey.many key leaseIds)
      let (q, sent) := writeAckGroups q rest
      (q, replies.map (fun reply => (reply, appResponseToProto response)) ++ sent)

/-! ## Grouping keeps every job -/

section Grouping

variable {β : Type} {f : AckKey × AckGroup → List β} {g : AckJob → List β}
  (hnil : ∀ key, f (key, [], []) = [])
  (hadd : ∀ job ids replies,
    f (job.key, ids ++ [job.leaseId], replies ++ job.reply.toList) =
      f (job.key, ids, replies) ++ g job)

include hnil hadd

theorem addAckJob_perm (groups : OrdMap AckKey AckGroup) (job : AckJob) :
    ((addAckJob groups job).entries.flatMap f).Perm (groups.entries.flatMap f ++ g job) := by
  refine ((OrdMap.entries_insert_perm groups job.key _).flatMap_right f).trans ?_
  rw [List.flatMap_cons, hadd]
  cases hget : groups.get? job.key with
  | none =>
      rw [Option.getD_none, hnil, List.nil_append, OrdMap.erase_of_not_mem hget]
      exact List.perm_append_comm
  | some entry =>
      have hold := (OrdMap.entries_perm_of_get? hget).flatMap_right f
      rw [List.flatMap_cons] at hold
      rw [Option.getD_some, List.append_assoc]
      refine List.Perm.trans ?_ (hold.symm.append_right (g job))
      rw [List.append_assoc]
      exact List.perm_append_comm.append_left _

/-- What the groups hold is what the jobs bring, for anything that a job
adds at the end of its group. -/
theorem groupAckJobs_perm (jobs : List AckJob) :
    ((groupAckJobs jobs).entries.flatMap f).Perm (jobs.flatMap g) := by
  induction jobs using List.reverseRecOn with
  | nil => exact List.Perm.refl _
  | append_singleton jobs job ih =>
      rw [groupAckJobs, List.foldl_concat, ← groupAckJobs, List.flatMap_append,
        List.flatMap_singleton]
      exact (addAckJob_perm hnil hadd _ job).trans (ih.append_right _)

end Grouping

theorem groupAckJobs_leases (jobs : List AckJob) :
    ((groupAckJobs jobs).entries.flatMap fun e => e.2.1.map fun id => (e.1, id)).Perm
      (jobs.map fun job => (job.key, job.leaseId)) := by
  have hperm := groupAckJobs_perm (f := fun e => e.2.1.map fun id => (e.1, id))
    (g := fun job => [(job.key, job.leaseId)]) (fun _ => rfl)
    (fun job ids replies => by rw [List.map_append]; rfl) jobs
  rwa [← List.map_eq_flatMap] at hperm

theorem groupAckJobs_ne_nil {jobs : List AckJob} :
    ∀ e ∈ (groupAckJobs jobs).entries, e.2.1 ≠ [] := by
  induction jobs using List.reverseRecOn with
  | nil => exact fun e he => absurd he List.not_mem_nil
  | append_singleton jobs job ih =>
      rintro ⟨key, entry⟩ he
      rw [groupAckJobs, List.foldl_concat, ← groupAckJobs, addAckJob, ← OrdMap.get?_eq_some,
        OrdMap.get?_insert] at he
      split_ifs at he
      · obtain rfl := Option.some.inj he
        exact List.concat_ne_nil _ _
      · exact ih _ (OrdMap.get?_eq_some.mp he)

/-- Every job that wants a reply gets one, and it says `Ok`. -/
theorem writeAckGroups_replies (q : Queue) (jobs : List AckJob) :
    (writeAckGroups q (groupAckJobs jobs).entries).2.Perm
      (jobs.flatMap fun job => job.reply.toList.map fun reply => (reply, .ok)) := by
  have hsent : ∀ (l : List (AckKey × AckGroup)) (q : Queue), (writeAckGroups q l).2 =
      l.flatMap fun e => e.2.2.map fun reply => (reply, .ok) := by
    intro l
    induction l with
    | nil => exact fun _ => rfl
    | cons e rest ih =>
        intro q
        have hok : appResponseToProto (q.apply (AckKey.many e.1 e.2.1)).2 = .ok := by
          unfold AckKey.many
          split <;> rfl
        simp only [writeAckGroups, List.flatMap_cons, hok, ih]
  rw [hsent]
  exact groupAckJobs_perm (f := fun e => e.2.2.map fun reply => (reply, Response.ok))
    (fun _ => rfl) (fun job ids replies => List.map_append) jobs

/-! ## One request at a time -/

namespace Queue

/-- What a job does on its own. -/
def settle (q : Queue) (x : AckKey × LeaseId) : Queue := (q.apply (AckKey.one x.1 x.2)).1

theorem settle_eq (q : Queue) (x : AckKey × LeaseId) :
    q.settle x = q.updateTopic (AckKey.topic x.1)
      (settleTopic · (AckKey.group x.1) x.2 (AckKey.nack x.1)) := by
  unfold settle AckKey.one
  cases AckKey.nack x.1 with
  | true => rfl
  | false =>
      simp only [apply, ack, reclaimTopic, updateTopic_eq, OrdMap.modify_modify]
      rfl

/-- A group's request does what its leases do one by one. -/
theorem apply_many {q : Queue} (hq : q.Topics TopicNormal) (key : AckKey) {ids : List LeaseId}
    (hne : ids ≠ []) :
    (q.apply (AckKey.many key ids)).1 = (ids.map fun id => (key, id)).foldl settle q := by
  have hone : (ids.map fun id => (key, id)).foldl settle q = q.updateTopic (AckKey.topic key)
      fun t => ids.foldl (fun t id => settleTopic t (AckKey.group key) id (AckKey.nack key)) t := by
    rw [List.foldl_map, ← foldl_updateTopic]
    simp only [settle_eq]
  rw [hone]
  unfold AckKey.many
  cases AckKey.nack key with
  | true => exact foldl_updateTopic ..
  | false =>
      simp only [apply, ack, reclaimTopic, foldl_updateTopic]
      simp only [updateTopic_eq, OrdMap.modify_modify]
      rw [OrdMap.modify_congr fun t ht => (foldl_settleTopic (hq _ t ht) _ hne).symm]

theorem topicsNormal_apply {q : Queue} (hq : q.Topics TopicNormal) (req : AppRequest) :
    (q.apply req).1.Topics TopicNormal :=
  (apply_steps q req).topicsAt (fun _ => TopicNormal.empty) (fun _ _ _ ht => ht)
    (fun _ _ _ ht hpre => ht.run hpre) hq

/-- Two jobs do not ack and nack the same lease. -/
def NoClash (x y : AckKey × LeaseId) : Prop :=
  AckKey.topic x.1 = AckKey.topic y.1 → AckKey.group x.1 = AckKey.group y.1 → x.2 = y.2 →
    AckKey.nack x.1 = AckKey.nack y.1

theorem settle_comm {q : Queue} (hq : q.Topics TopicNormal) {x y : AckKey × LeaseId}
    (h : NoClash x y) : (q.settle x).settle y = (q.settle y).settle x := by
  simp only [settle_eq, updateTopic_eq]
  rw [OrdMap.modify_comm fun hτ t ht => ?_]
  exact settleTopic_comm (hq _ t ht) (h hτ)

end Queue

/-- A queue all of whose groups are normal, where jobs may be swapped. -/
abbrev NormalQueue := { q : Queue // q.Topics TopicNormal }

def NormalQueue.settle (q : NormalQueue) (x : AckKey × LeaseId) : NormalQueue :=
  ⟨q.1.settle x, Queue.topicsNormal_apply q.2 _⟩

theorem NormalQueue.foldl_settle (q : NormalQueue) (l : List (AckKey × LeaseId)) :
    (l.foldl NormalQueue.settle q).1 = l.foldl Queue.settle q.1 := by
  induction l generalizing q with
  | nil => rfl
  | cons x rest ih => exact ih _

namespace Queue

/-- The order of jobs without a clash does not matter. -/
theorem settle_perm {q : Queue} (hq : q.Topics TopicNormal) {l l' : List (AckKey × LeaseId)}
    (hperm : l.Perm l') (hclash : ∀ x ∈ l, ∀ y ∈ l, NoClash x y) :
    l.foldl settle q = l'.foldl settle q := by
  have hswap : ∀ x ∈ l, ∀ y ∈ l, ∀ q : NormalQueue,
      (q.settle x).settle y = (q.settle y).settle x := fun x hx y hy q =>
    Subtype.ext (settle_comm q.2 (hclash x hx y hy))
  rw [← NormalQueue.foldl_settle ⟨q, hq⟩, hperm.foldl_eq' hswap, NormalQueue.foldl_settle]

theorem run_requests (q : Queue) (jobs : List AckJob) :
    q.run (jobs.map AckJob.request) =
      (jobs.map fun job => (job.key, job.leaseId)).foldl settle q := by
  rw [run, List.foldl_map, List.foldl_map]
  rfl

theorem writeAckGroups_settle {q : Queue} (hq : q.Topics TopicNormal)
    {groups : List (AckKey × AckGroup)} (hne : ∀ e ∈ groups, e.2.1 ≠ []) :
    (writeAckGroups q groups).1 =
      (groups.flatMap fun e => e.2.1.map fun id => (e.1, id)).foldl settle q := by
  induction groups generalizing q with
  | nil => rfl
  | cons e rest ih =>
      rw [List.flatMap_cons, List.foldl_append, ← apply_many hq e.1 (hne e List.mem_cons_self)]
      exact ih (topicsNormal_apply hq _) fun e he => hne e (List.mem_cons_of_mem _ he)

end Queue

theorem run_normal (reqs : List AppRequest) : (({} : Queue).run reqs).Topics TopicNormal :=
  Queue.TopicsAt.run (fun _ => TopicNormal.empty) (fun _ _ _ ht => ht)
    (fun _ _ _ ht hpre => ht.run hpre) (Queue.topicsAt_empty _) reqs

/-- Jobs of which none acks a lease that another one nacks, cut into
batches in any way and their groups written in any order, leave the state
that the jobs leave one by one as they arrived; and so do the jobs one by
one in any order. -/
theorem ack_groups_any_order (reqs : List AppRequest) {jobs : List AckJob}
    (hclash : ∀ a ∈ jobs, ∀ b ∈ jobs, a.topic = b.topic → a.group = b.group →
      a.leaseId = b.leaseId → a.nack = b.nack)
    {batches : List (List AckJob)} (hcut : batches.flatten = jobs) :
    (∀ groups, groups.Perm (batches.flatMap fun batch => (groupAckJobs batch).entries) →
      (writeAckGroups (({} : Queue).run reqs) groups).1 =
        (({} : Queue).run reqs).run (jobs.map AckJob.request)) ∧
    ∀ jobs', List.Perm jobs' jobs → (({} : Queue).run reqs).run (jobs'.map AckJob.request) =
      (({} : Queue).run reqs).run (jobs.map AckJob.request) := by
  have hnoclash : ∀ x ∈ jobs.map fun job => (job.key, job.leaseId),
      ∀ y ∈ jobs.map fun job => (job.key, job.leaseId), Queue.NoClash x y := by
    intro x hx y hy
    obtain ⟨a, ha, rfl⟩ := List.mem_map.mp hx
    obtain ⟨b, hb, rfl⟩ := List.mem_map.mp hy
    exact hclash a ha b hb
  have hperm : ∀ {l}, List.Perm l (jobs.map fun job => (job.key, job.leaseId)) →
      l.foldl Queue.settle (({} : Queue).run reqs) =
        (({} : Queue).run reqs).run (jobs.map AckJob.request) := fun hl => by
    rw [Queue.run_requests]
    exact (Queue.settle_perm (run_normal reqs) hl.symm hnoclash).symm
  constructor
  · intro groups hgroups
    have hleases : (batches.flatMap fun batch => (groupAckJobs batch).entries).flatMap
        (fun e => e.2.1.map fun id => (e.1, id)) |>.Perm
          (jobs.map fun job => (job.key, job.leaseId)) := by
      rw [List.flatMap_assoc, ← hcut, List.map_flatten, ← List.flatMap_def]
      exact List.Perm.flatMap_left _ fun batch _ => groupAckJobs_leases batch
    rw [Queue.writeAckGroups_settle (run_normal reqs)]
    · exact hperm ((hgroups.flatMap_right _).trans hleases)
    · intro e he
      obtain ⟨batch, -, he⟩ := List.mem_flatMap.mp (hgroups.mem_iff.mp he)
      exact groupAckJobs_ne_nil e he
  · intro jobs' hjobs
    rw [Queue.run_requests]
    exact hperm (hjobs.map _)

/-- Two leases of one poll, acked and nacked, and an ack of a lease that
does not exist, in one batch whose groups are written in reverse. -/
theorem ack_groups_any_order_reverse :
    let reqs : List AppRequest :=
      [.produce "t" .default .raw [1] "" 0 5, .produce "t" .default .raw [2] "" 0 5,
        .poll "t" "g" 2 1000 6]
    let jobs : List AckJob :=
      [⟨"t", "g", 1, true, none⟩, ⟨"t", "g", 0, false, some 7⟩, ⟨"t", "h", 9, false, none⟩]
    (writeAckGroups (({} : Queue).run reqs) (groupAckJobs jobs).entries.reverse).1 =
      (({} : Queue).run reqs).run (jobs.map AckJob.request) := by
  intro reqs jobs
  have hgroups : (groupAckJobs jobs).entries.reverse.Perm
      ([jobs].flatMap fun batch => (groupAckJobs batch).entries) := List.reverse_perm _
  exact (ack_groups_any_order reqs (by decide) (List.flatten_singleton)).1 _ hgroups

end HermesMq
