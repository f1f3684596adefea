import HermesMq.AckBatch
import HermesMq.Batcher
import HermesMq.ClientPort
import HermesMq.Machine
import HermesMq.PollResponse

/-!
# The way of an ack

Acks and nacks go the way of a produce request, through a channel and a
batcher, but a batch is grouped by topic, group and kind, and its task makes
one write for each group, one after the other. Up to four tasks write at a
time. The acks of a subscription want no reply.

No ack is lost on that way and none is written twice, and one that is
answered with `ok` has been applied (`acks_written_once`).
-/

namespace HermesMq

def ackQueueDepth : Nat := 1024

def ackWritePipeline : Nat := 4

/-- The loop of `ack_batcher` over `try_recv`. -/
def takeAcks (first : AckJob) (waiting : List AckJob) : List AckJob × List AckJob :=
  (first :: waiting.take (ackBatchMax - 1), waiting.drop (ackBatchMax - 1))

/-- The leases of a group, each with what is to become of it. -/
def ackLeases (e : AckKey × AckGroup) : List (AckKey × LeaseId) := e.2.1.map fun id => (e.1, id)

def AckJob.lease (job : AckJob) : AckKey × LeaseId := (job.key, job.leaseId)

/-- The leases that a request settles, as the keys of its jobs have them. -/
def AppRequest.settles : AppRequest → List (AckKey × LeaseId)
  | .ackMany topic group leaseIds =>
      leaseIds.map fun id => (toLex (topic, toLex (group, false)), id)
  | .nackMany topic group leaseIds =>
      leaseIds.map fun id => (toLex (topic, toLex (group, true)), id)
  | _ => []

/-- A task that writes the groups of a batch. -/
structure AckWriter where
  groups : List (AckKey × AckGroup)
  /-- The answer to the write of the first group. -/
  response : Option Response := none

namespace AckWriter

def unwritten (w : AckWriter) : List (AckKey × LeaseId) :=
  match w.response with
  | none => w.groups.flatMap ackLeases
  | some _ => w.groups.tail.flatMap ackLeases

def unanswered (w : AckWriter) : List Nat := w.groups.flatMap fun e => e.2.2

end AckWriter

structure AckPort where
  reqs : List AppRequest := []
  batcher : Batcher AckJob AckWriter := {}
  /-- The jobs in the order in which they were sent; a job that wants a reply
  gives its own number. -/
  sent : List AckJob := []
  /-- The leases of the writes that were applied, and of those that failed. -/
  written : List (AckKey × LeaseId) := []
  failed : List (AckKey × LeaseId) := []
  replies : List (Nat × Response) := []

inductive AckEvent where
  | send (topic : TopicId) (group : GroupId) (leaseId : LeaseId) (nack wantsReply : Bool)
  | receive
  | spawn
  /-- The write of a group is applied; its answer may be lost. -/
  | apply (i : Nat) (lost : Option WriteError)
  | fail (i : Nat) (error : WriteError)
  | reply (i : Nat)
  | release (i : Nat)
  | other (req : AppRequest)

namespace AckPort

def queue (s : AckPort) : Queue := ({} : Queue).run s.reqs

def unwritten (s : AckPort) : List (AckKey × LeaseId) :=
  s.batcher.pending (fun job => [job.lease]) AckWriter.unwritten

def unanswered (s : AckPort) : List Nat :=
  s.batcher.pending (fun job => job.reply.toList) AckWriter.unanswered

def send (s : AckPort) (job : AckJob) : AckPort :=
  { s with batcher := s.batcher.submit job, sent := s.sent ++ [job] }

def apply (s : AckPort) (i : Nat) (e : AckKey × AckGroup) (rest : List (AckKey × AckGroup))
    (lost : Option WriteError) : AckPort :=
  let req := AckKey.many e.1 e.2.1
  let response := lost.elim (appResponseToProto (s.queue.apply req).2) mapRaftError
  { s with reqs := s.reqs ++ [req], written := s.written ++ ackLeases e
           batcher := s.batcher.advance i ⟨e :: rest, some response⟩ }

def fail (s : AckPort) (i : Nat) (e : AckKey × AckGroup) (rest : List (AckKey × AckGroup))
    (error : WriteError) : AckPort :=
  { s with failed := s.failed ++ ackLeases e
           batcher := s.batcher.advance i ⟨e :: rest, some (mapRaftError error)⟩ }

def reply (s : AckPort) (i : Nat) (e : AckKey × AckGroup) (rest : List (AckKey × AckGroup))
    (response : Response) : AckPort :=
  { s with replies := s.replies ++ e.2.2.map fun id => (id, response)
           batcher := s.batcher.advance i ⟨rest, none⟩ }

/-- One step; `none` when the event cannot happen in this state. -/
def step (s : AckPort) : AckEvent → Option AckPort
  | .send topic group leaseId nack wantsReply =>
      if s.batcher.waiting.length < ackQueueDepth ∧ checkNames topic group = .ok () then
        some (s.send ⟨topic, group, leaseId, nack, if wantsReply then some s.sent.length else none⟩)
      else none
  | .receive => s.batcher.receive.map fun b => { s with batcher := b }
  | .spawn =>
      (s.batcher.spawn ackWritePipeline takeAcks fun jobs =>
        ⟨(groupAckJobs jobs).entries, none⟩).map fun b => { s with batcher := b }
  | .apply i lost =>
      match s.batcher.flights[i]? with
      | some ⟨e :: rest, none⟩ => some (s.apply i e rest lost)
      | _ => none
  | .fail i error =>
      match s.batcher.flights[i]? with
      | some ⟨e :: rest, none⟩ => some (s.fail i e rest error)
      | _ => none
  | .reply i =>
      match s.batcher.flights[i]? with
      | some ⟨e :: rest, some response⟩ => some (s.reply i e rest response)
      | _ => none
  | .release i =>
      match s.batcher.flights[i]? with
      | some ⟨[], none⟩ => some { s with batcher := s.batcher.finish i }
      | _ => none
  | .other req => some { s with reqs := s.reqs ++ [req] }

def run (s : AckPort) (events : List AckEvent) : Option AckPort := Machine.run step s events

end AckPort

/-! ## Jobs in their groups -/

theorem settles_many (e : AckKey × AckGroup) :
    (AckKey.many e.1 e.2.1).settles = ackLeases e := by
  obtain ⟨⟨topic, group, nack⟩, ids, replies⟩ := e
  cases nack <;> rfl

theorem takeAcks_append (first : AckJob) (waiting : List AckJob) :
    (takeAcks first waiting).1 ++ (takeAcks first waiting).2 = first :: waiting :=
  congrArg (first :: ·) (List.take_append_drop ..)

theorem groupAckJobs_replies (jobs : List AckJob) :
    ((groupAckJobs jobs).entries.flatMap fun e => e.2.2).Perm
      (jobs.flatMap fun job => job.reply.toList) :=
  groupAckJobs_perm (f := fun e => e.2.2) (fun _ => rfl) (fun _ _ _ => rfl) jobs

/-- A reply that a group sends is for a job with a lease in the group. -/
theorem groupAckJobs_job {jobs : List AckJob} {e : AckKey × AckGroup}
    (he : e ∈ (groupAckJobs jobs).entries) {id : Nat} (hid : id ∈ e.2.2) :
    ∃ job ∈ jobs, job.reply = some id ∧ job.key = e.1 ∧ job.leaseId ∈ e.2.1 := by
  have hperm := groupAckJobs_perm (f := fun e => e.2.2.map fun id => (e.1, id))
    (g := fun job => job.reply.toList.map fun id => (job.key, id)) (fun _ => rfl)
    (fun job ids replies => List.map_append) jobs
  have hmem : (e.1, id) ∈ jobs.flatMap fun job => job.reply.toList.map fun id => (job.key, id) :=
    hperm.subset (List.mem_flatMap.mpr ⟨e, he, List.mem_map_of_mem hid⟩)
  obtain ⟨job, hjob, hreply⟩ := List.mem_flatMap.mp hmem
  obtain ⟨id', hid', heq⟩ := List.mem_map.mp hreply
  obtain ⟨hkey, rfl⟩ := Prod.mk.inj heq
  refine ⟨job, hjob, Option.mem_toList.mp hid', hkey, ?_⟩
  -- its lease is in a group of the same key, and there is one only
  have hlease : job.lease ∈ (groupAckJobs jobs).entries.flatMap ackLeases :=
    (groupAckJobs_leases jobs).symm.subset (List.mem_map_of_mem hjob)
  obtain ⟨e', he', hmem'⟩ := List.mem_flatMap.mp hlease
  obtain ⟨leaseId, hleaseId, heq⟩ := List.mem_map.mp hmem'
  obtain ⟨hkey', hleaseId'⟩ := Prod.mk.inj heq
  rwa [OrdMap.key_unique he he' (hkey.symm.trans hkey'.symm), ← hleaseId']

/-! ## No ack is lost -/

/-- The group has the leases of the jobs that it answers. -/
def Concerns (sent : List AckJob) (e : AckKey × AckGroup) : Prop :=
  ∀ id ∈ e.2.2, ∃ job, sent[id]? = some job ∧ job.key = e.1 ∧ job.leaseId ∈ e.2.1

theorem Concerns.mono {sent : List AckJob} {e : AckKey × AckGroup} (h : Concerns sent e)
    (more : List AckJob) : Concerns (sent ++ more) e := by
  intro id hid
  obtain ⟨job, hjob, hkey, hlease⟩ := h id hid
  refine ⟨job, ?_, hkey, hlease⟩
  rw [List.getElem?_append_left (List.getElem?_eq_some_iff.mp hjob).1, hjob]

namespace AckPort

structure Ok (s : AckPort) : Prop where
  leases : (s.written ++ s.failed ++ s.unwritten).Perm (s.sent.map AckJob.lease)
  replies : (s.replies.map Prod.fst ++ s.unanswered).Perm (s.sent.flatMap (·.reply.toList))
  written : s.written.Sublist (s.reqs.flatMap AppRequest.settles)
  numbered : ∀ job ∈ s.sent, ∀ id, job.reply = some id → s.sent[id]? = some job
  queued : ∀ job ∈ s.batcher.queued, job ∈ s.sent
  groups : ∀ w ∈ s.batcher.flights, ∀ e ∈ w.groups, Concerns s.sent e
  applied : ∀ w ∈ s.batcher.flights, w.response = some .ok → ∀ e, w.groups.head? = some e →
    AckKey.many e.1 e.2.1 ∈ s.reqs
  told : ∀ id, (id, .ok) ∈ s.replies → ∃ e, id ∈ e.2.2 ∧ Concerns s.sent e ∧
    AckKey.many e.1 e.2.1 ∈ s.reqs
  permits : s.batcher.flights.length ≤ ackWritePipeline

variable {s s' : AckPort}

theorem Ok.empty : Ok {} where
  leases := List.Perm.nil
  replies := List.Perm.nil
  written := List.Sublist.slnil
  numbered _ h := by cases h
  queued _ h := by cases h
  groups _ h := by cases h
  applied _ h := by cases h
  told _ h := by cases h
  permits := by decide

theorem Ok.send (h : s.Ok) {job : AckJob}
    (hreply : ∀ id, job.reply = some id → id = s.sent.length) : (s.send job).Ok where
  leases := by
    rw [show (s.send job).unwritten = s.unwritten ++ [job.lease] from Batcher.pending_submit ..,
      show (s.send job).sent = s.sent ++ [job] from rfl, List.map_append, ← List.append_assoc]
    exact h.leases.append_right _
  replies := by
    rw [show (s.send job).unanswered = s.unanswered ++ job.reply.toList from
        Batcher.pending_submit ..,
      show (s.send job).sent = s.sent ++ [job] from rfl, List.flatMap_append,
      List.flatMap_singleton, ← List.append_assoc]
    exact h.replies.append_right _
  written := h.written
  numbered job' hmem id hid := by
    rcases List.mem_append.mp hmem with hold | hnew
    · have hget := h.numbered job' hold id hid
      exact (List.getElem?_append_left (List.getElem?_eq_some_iff.mp hget).1).trans hget
    · cases List.mem_singleton.mp hnew
      rw [hreply id hid]
      exact List.getElem?_concat_length
  queued job' hmem := by
    rw [show (s.send job).batcher.queued = s.batcher.queued ++ [job] from
      Batcher.queued_submit ..] at hmem
    rcases List.mem_append.mp hmem with hold | hnew
    · exact List.mem_append_left _ (h.queued job' hold)
    · exact List.mem_append_right _ hnew
  groups w hw e he := (h.groups w hw e he).mono _
  applied := h.applied
  told id hid := by
    obtain ⟨e, hmem, hconcerns, happlied⟩ := h.told id hid
    exact ⟨e, hmem, hconcerns.mono _, happlied⟩
  permits := h.permits

theorem Ok.receive (h : s.Ok) {b : Batcher AckJob AckWriter} (hb : s.batcher.receive = some b) :
    Ok { s with batcher := b } := by
  obtain ⟨hqueued, hflights⟩ := Batcher.receive_eq_some hb
  refine ⟨?_, ?_, h.written, h.numbered, hqueued ▸ h.queued, hflights ▸ h.groups,
    hflights ▸ h.applied, h.told, hflights ▸ h.permits⟩
  · rw [show unwritten { s with batcher := b } = s.unwritten from Batcher.pending_receive _ _ hb]
    exact h.leases
  · rw [show unanswered { s with batcher := b } = s.unanswered from Batcher.pending_receive _ _ hb]
    exact h.replies

theorem Ok.spawn (h : s.Ok) {b : Batcher AckJob AckWriter}
    (hb : s.batcher.spawn ackWritePipeline takeAcks
      (fun jobs => ⟨(groupAckJobs jobs).entries, none⟩) = some b) :
    Ok { s with batcher := b } := by
  obtain ⟨batch, hflights, hbatch, hpermits⟩ := Batcher.spawn_eq_some takeAcks_append hb
  have hsent : ∀ job ∈ batch, job ∈ s.sent := fun job hjob =>
    h.queued job (hbatch ▸ List.mem_append_left _ hjob)
  refine ⟨?_, ?_, h.written, h.numbered,
    fun job hjob => h.queued job (hbatch ▸ List.mem_append_right _ hjob), fun w hw => ?_,
    fun w hw => ?_, h.told, hpermits⟩
  · have hpending : (unwritten { s with batcher := b }).Perm s.unwritten := by
      refine Batcher.pending_spawn _ _ hflights hbatch ?_
      rw [← List.map_eq_flatMap]
      exact groupAckJobs_leases batch
    exact (hpending.append_left _).trans h.leases
  · have hpending : (unanswered { s with batcher := b }).Perm s.unanswered :=
      Batcher.pending_spawn _ _ hflights hbatch (groupAckJobs_replies batch)
    exact (hpending.append_left _).trans h.replies
  · rcases List.mem_append.mp (hflights ▸ hw) with hold | hnew
    · exact h.groups w hold
    · cases List.mem_singleton.mp hnew
      intro e he id hid
      obtain ⟨job, hjob, hreply, hkey, hlease⟩ := groupAckJobs_job he hid
      exact ⟨job, h.numbered job (hsent job hjob) id hreply, hkey, hlease⟩
  · rcases List.mem_append.mp (hflights ▸ hw) with hold | hnew
    · exact h.applied w hold
    · cases List.mem_singleton.mp hnew
      exact nofun

/-- The write of a group comes back, applied or not. -/
theorem Ok.write (h : s.Ok) {i : Nat} {e : AckKey × AckGroup} {rest : List (AckKey × AckGroup)}
    (hw : s.batcher.flights[i]? = some ⟨e :: rest, none⟩) {response : Response}
    (hbatcher : s'.batcher = s.batcher.advance i ⟨e :: rest, some response⟩)
    (hsent : s'.sent = s.sent) (hreplies : s'.replies = s.replies) (hreqs : s.reqs ⊆ s'.reqs)
    (hleases : (s'.written ++ s'.failed).Perm (s.written ++ s.failed ++ ackLeases e))
    (hwritten : s'.written.Sublist (s'.reqs.flatMap AppRequest.settles))
    (hok : response = .ok → AckKey.many e.1 e.2.1 ∈ s'.reqs) : s'.Ok := by
  have hflight {w : AckWriter} (hmem : w ∈ s'.batcher.flights) :
      w ∈ s.batcher.flights ∨ w = ⟨e :: rest, some response⟩ :=
    List.mem_or_eq_of_mem_set (hbatcher ▸ hmem)
  have hunwritten : (ackLeases e ++ s'.unwritten).Perm s.unwritten := by
    rw [unwritten, hbatcher]
    exact Batcher.pending_advance _ _ hw (List.Perm.refl _)
  have hunanswered : ([] ++ s'.unanswered).Perm s.unanswered := by
    rw [unanswered, hbatcher]
    exact Batcher.pending_advance _ _ hw (List.Perm.refl _)
  refine ⟨?_, ?_, hwritten, hsent ▸ h.numbered, ?_, fun w hmem => ?_, fun w hmem => ?_,
    fun id hid => ?_, ?_⟩
  · rw [hsent]
    refine ((hleases.append_right _).trans ?_).trans h.leases
    rw [List.append_assoc]
    exact hunwritten.append_left _
  · rw [hsent, hreplies]
    exact (hunanswered.append_left _).trans h.replies
  · rw [hsent, hbatcher]
    exact h.queued
  · rw [hsent]
    rcases hflight hmem with hold | rfl
    · exact h.groups w hold
    · exact h.groups ⟨e :: rest, none⟩ (List.mem_of_getElem? hw)
  · rcases hflight hmem with hold | rfl
    · exact fun hresponse e' he' => hreqs (h.applied w hold hresponse e' he')
    · intro hresponse e' he'
      cases he'
      exact hok (Option.some.inj hresponse)
  · rw [hreplies] at hid
    obtain ⟨e', hmem, hconcerns, happlied⟩ := h.told id hid
    exact ⟨e', hmem, hsent ▸ hconcerns, hreqs happlied⟩
  · rw [hbatcher]
    exact (List.length_set ..).trans_le h.permits

theorem Ok.apply (h : s.Ok) {i : Nat} {e : AckKey × AckGroup} {rest : List (AckKey × AckGroup)}
    (hw : s.batcher.flights[i]? = some ⟨e :: rest, none⟩) (lost : Option WriteError) :
    (s.apply i e rest lost).Ok := by
  refine h.write hw rfl rfl rfl (List.subset_append_left ..) ?_ ?_
    fun _ => List.mem_append_right _ (List.mem_singleton_self _)
  · show (s.written ++ ackLeases e ++ s.failed).Perm _
    rw [List.append_assoc, List.append_assoc]
    exact List.perm_append_comm.append_left _
  · rw [AckPort.apply, List.flatMap_append, List.flatMap_singleton, settles_many]
    exact h.written.append_right _

theorem Ok.fail (h : s.Ok) {i : Nat} {e : AckKey × AckGroup} {rest : List (AckKey × AckGroup)}
    (hw : s.batcher.flights[i]? = some ⟨e :: rest, none⟩) (error : WriteError) :
    (s.fail i e rest error).Ok := by
  refine h.write hw rfl rfl rfl (List.Subset.refl _) ?_ h.written fun hok => ?_
  · exact List.Perm.of_eq (List.append_assoc ..).symm
  · cases error <;> cases hok

theorem Ok.reply (h : s.Ok) {i : Nat} {e : AckKey × AckGroup} {rest : List (AckKey × AckGroup)}
    {response : Response} (hw : s.batcher.flights[i]? = some ⟨e :: rest, some response⟩) :
    (s.reply i e rest response).Ok where
  leases := by
    have hunwritten : ([] ++ (s.reply i e rest response).unwritten).Perm s.unwritten :=
      Batcher.pending_advance _ _ hw (List.Perm.refl _)
    exact (hunwritten.append_left _).trans h.leases
  replies := by
    have hunanswered : (e.2.2 ++ (s.reply i e rest response).unanswered).Perm s.unanswered :=
      Batcher.pending_advance _ _ hw (List.Perm.refl _)
    have hhandlers : (s.reply i e rest response).replies.map Prod.fst =
        s.replies.map Prod.fst ++ e.2.2 := by
      rw [AckPort.reply, List.map_append, List.map_map]
      exact congrArg _ (List.map_id e.2.2)
    rw [hhandlers, List.append_assoc]
    exact (hunanswered.append_left _).trans h.replies
  written := h.written
  numbered := h.numbered
  queued := h.queued
  groups w hmem e' he' := by
    rcases List.mem_or_eq_of_mem_set hmem with hold | rfl
    · exact h.groups w hold e' he'
    · exact h.groups _ (List.mem_of_getElem? hw) e' (List.mem_cons_of_mem _ he')
  applied w hmem hresponse := by
    rcases List.mem_or_eq_of_mem_set hmem with hold | rfl
    · exact h.applied w hold hresponse
    · cases hresponse
  told id hid := by
    rcases List.mem_append.mp hid with hold | hnew
    · exact h.told id hold
    · obtain ⟨id', hmem, heq⟩ := List.mem_map.mp hnew
      cases heq
      exact ⟨e, hmem, h.groups _ (List.mem_of_getElem? hw) e List.mem_cons_self,
        h.applied _ (List.mem_of_getElem? hw) rfl e rfl⟩
  permits := (List.length_set ..).trans_le h.permits

theorem Ok.release (h : s.Ok) {i : Nat} (hw : s.batcher.flights[i]? = some ⟨[], none⟩) :
    Ok { s with batcher := s.batcher.finish i } where
  leases := ((Batcher.pending_finish _ _ hw rfl).append_left _).trans h.leases
  replies := ((Batcher.pending_finish _ _ hw rfl).append_left _).trans h.replies
  written := h.written
  numbered := h.numbered
  queued := h.queued
  groups w hmem := h.groups w (List.mem_of_mem_eraseIdx hmem)
  applied w hmem := h.applied w (List.mem_of_mem_eraseIdx hmem)
  told := h.told
  permits := (List.length_eraseIdx_le ..).trans h.permits

theorem Ok.other (h : s.Ok) (req : AppRequest) : Ok { s with reqs := s.reqs ++ [req] } :=
  { h with
    written := List.flatMap_append ▸ h.written.trans (List.sublist_append_left ..)
    applied := fun w hw hresponse e he => List.mem_append_left _ (h.applied w hw hresponse e he)
    told := fun id hid => by
      obtain ⟨e, hmem, hconcerns, happlied⟩ := h.told id hid
      exact ⟨e, hmem, hconcerns, List.mem_append_left _ happlied⟩ }

theorem Ok.step (h : s.Ok) {event : AckEvent} (hstep : s.step event = some s') : s'.Ok := by
  cases event with
  | send topic group leaseId nack wantsReply =>
      obtain ⟨-, hs'⟩ := Option.ite_none_right_eq_some.mp hstep
      cases hs'
      refine h.send fun id hid => ?_
      cases wantsReply with
      | true => exact (Option.some.inj hid).symm
      | false => cases hid
  | receive =>
      obtain ⟨b, hb, rfl⟩ := Option.map_eq_some_iff.mp hstep
      exact h.receive hb
  | spawn =>
      obtain ⟨b, hb, rfl⟩ := Option.map_eq_some_iff.mp hstep
      exact h.spawn hb
  | apply i lost =>
      simp only [AckPort.step] at hstep
      split at hstep
      · rename_i e rest hw
        cases hstep
        exact h.apply hw lost
      · cases hstep
  | fail i error =>
      simp only [AckPort.step] at hstep
      split at hstep
      · rename_i e rest hw
        cases hstep
        exact h.fail hw error
      · cases hstep
  | reply i =>
      simp only [AckPort.step] at hstep
      split at hstep
      · rename_i e rest response hw
        cases hstep
        exact h.reply hw
      · cases hstep
  | release i =>
      simp only [AckPort.step] at hstep
      split at hstep
      · rename_i hw
        cases hstep
        exact h.release hw
      · cases hstep
  | other req =>
      cases hstep
      exact h.other req

theorem run_ok {events : List AckEvent} (hrun : run {} events = some s) : s.Ok :=
  Machine.run_keeps (fun _ _ _ h hstep => Ok.step h hstep) Ok.empty hrun

end AckPort

/-- Every ack that was sent is in one write that was applied, in one that
failed, or still on its way; every reply is for one that wants it, and comes
once; and `ok` says that the ack has been applied. -/
theorem acks_written_once {events : List AckEvent} {s : AckPort}
    (hrun : AckPort.run {} events = some s) :
    (s.written ++ s.failed ++ s.unwritten).Perm (s.sent.map AckJob.lease) ∧
    s.written.Sublist (s.reqs.flatMap AppRequest.settles) ∧
    (s.replies.map Prod.fst ++ s.unanswered).Perm (s.sent.flatMap (·.reply.toList)) ∧
    ∀ id, (id, .ok) ∈ s.replies → ∃ job ids, s.sent[id]? = some job ∧ job.leaseId ∈ ids ∧
      AckKey.many job.key ids ∈ s.reqs := by
  have hok := AckPort.run_ok hrun
  refine ⟨hok.leases, hok.written, hok.replies, fun id hid => ?_⟩
  obtain ⟨e, hmem, hconcerns, happlied⟩ := hok.told id hid
  obtain ⟨job, hjob, hkey, hlease⟩ := hconcerns id hmem
  exact ⟨job, e.2.1, hjob, hlease, hkey ▸ happlied⟩

/-- Two acks and a nack of one batch: the acks are applied and answered, the
write of the nack fails. -/
theorem acks_written_once_nack_fails :
    ∃ s, AckPort.run {} [.send "t" "g" 4 false true, .send "t" "g" 6 true false,
        .send "t" "g" 5 false true, .receive, .spawn, .apply 0 none, .reply 0,
        .fail 0 (.other "stopped")] = some s ∧
      s.replies = [(0, .ok), (2, .ok)] ∧ s.failed.length = 1 ∧
      (s.written ++ s.failed ++ s.unwritten).Perm (s.sent.map AckJob.lease) := by
  have hrun : AckPort.run {} [.send "t" "g" 4 false true, .send "t" "g" 6 true false,
    .send "t" "g" 5 false true, .receive, .spawn, .apply 0 none, .reply 0,
    .fail 0 (.other "stopped")] = some _ := rfl
  exact ⟨_, hrun, rfl, rfl, (acks_written_once hrun).1⟩

end HermesMq
