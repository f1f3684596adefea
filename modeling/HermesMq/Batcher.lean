import Mathlib.Data.List.Perm.Basic

/-!
# Jobs collected into batches

Jobs wait in a channel. One loop receives the first, waits for a permit,
collects more of what waits, and hands the batch to a task of its own, which
works on it while the loop goes on.

A job asks for something, `wants`; `todo` is what a task has still to do of
that. What all of them have to do yet, `pending`, is in the order in which it
was submitted until the tasks start to work on it.
-/

structure Batcher (J W : Type) where
  waiting : List J := []
  /-- Received, and waiting for a permit. -/
  first : Option J := none
  /-- The tasks, each with a permit. -/
  flights : List W := []

namespace Batcher

variable {J W : Type}

def submit (b : Batcher J W) (j : J) : Batcher J W := { b with waiting := b.waiting ++ [j] }

def receive (b : Batcher J W) : Option (Batcher J W) :=
  match b.first, b.waiting with
  | none, j :: rest => some { b with first := some j, waiting := rest }
  | _, _ => none

/-- `collect` takes what goes with the first job from the channel. -/
def spawn (permits : Nat) (collect : J → List J → List J × List J) (start : List J → W)
    (b : Batcher J W) : Option (Batcher J W) :=
  match b.first with
  | none => none
  | some j =>
      if b.flights.length < permits then
        let (batch, rest) := collect j b.waiting
        some { waiting := rest, first := none, flights := b.flights ++ [start batch] }
      else none

def advance (b : Batcher J W) (i : Nat) (w : W) : Batcher J W :=
  { b with flights := b.flights.set i w }

/-- The task ends and gives its permit back. -/
def finish (b : Batcher J W) (i : Nat) : Batcher J W := { b with flights := b.flights.eraseIdx i }

/-- The jobs that are in no batch yet. -/
def queued (b : Batcher J W) : List J := b.first.toList ++ b.waiting

variable {b b' : Batcher J W} {i permits : Nat} {w w' : W}

theorem queued_submit (b : Batcher J W) (j : J) : (b.submit j).queued = b.queued ++ [j] :=
  (List.append_assoc ..).symm

theorem receive_eq_some (h : b.receive = some b') :
    b'.queued = b.queued ∧ b'.flights = b.flights := by
  obtain ⟨waiting, first, flights⟩ := b
  cases first with
  | some j => cases h
  | none =>
      cases waiting with
      | nil => cases h
      | cons j rest =>
          cases h
          exact ⟨rfl, rfl⟩

theorem spawn_eq_some {collect : J → List J → List J × List J} {start : List J → W}
    (hcollect : ∀ j rest, (collect j rest).1 ++ (collect j rest).2 = j :: rest)
    (h : b.spawn permits collect start = some b') :
    ∃ batch, b'.flights = b.flights ++ [start batch] ∧ batch ++ b'.queued = b.queued ∧
      b'.flights.length ≤ permits := by
  obtain ⟨waiting, first, flights⟩ := b
  cases first with
  | none => cases h
  | some j =>
      obtain ⟨hlt, hb'⟩ := Option.ite_none_right_eq_some.mp h
      cases hb'
      refine ⟨_, rfl, hcollect j waiting, ?_⟩
      rw [List.length_append]
      exact hlt

theorem flights_perm (hw : b.flights[i]? = some w) :
    b.flights.Perm (w :: b.flights.eraseIdx i) := by
  obtain ⟨hi, rfl⟩ := List.getElem?_eq_some_iff.mp hw
  exact (List.getElem_cons_eraseIdx_perm hi).symm

variable {β : Type} (wants : J → List β) (todo : W → List β)

def pending (b : Batcher J W) : List β := b.flights.flatMap todo ++ b.queued.flatMap wants

theorem pending_submit (b : Batcher J W) (j : J) :
    (b.submit j).pending wants todo = b.pending wants todo ++ wants j := by
  rw [pending, pending, queued_submit, List.flatMap_append, List.flatMap_singleton,
    List.append_assoc]
  rfl

theorem pending_receive (h : b.receive = some b') :
    b'.pending wants todo = b.pending wants todo := by
  obtain ⟨hqueued, hflights⟩ := receive_eq_some h
  rw [pending, pending, hqueued, hflights]

/-- A task starts with what the jobs of its batch want. -/
theorem pending_spawn {batch : List J} (hflights : b'.flights = b.flights ++ [w])
    (hbatch : batch ++ b'.queued = b.queued) (htodo : (todo w).Perm (batch.flatMap wants)) :
    (b'.pending wants todo).Perm (b.pending wants todo) := by
  rw [pending, pending, hflights, ← hbatch, List.flatMap_append, List.flatMap_append,
    List.flatMap_singleton, List.append_assoc]
  exact (htodo.append_right _).append_left _

/-- A task goes on, with `done` out of its way. -/
theorem pending_advance (hw : b.flights[i]? = some w) {done : List β}
    (htodo : (done ++ todo w').Perm (todo w)) :
    (done ++ (b.advance i w').pending wants todo).Perm (b.pending wants todo) := by
  have hi := (List.getElem?_eq_some_iff.mp hw).1
  have hold := (flights_perm hw).flatMap_right todo
  have hnew : ((b.flights.set i w').flatMap todo).Perm
      (todo w' ++ (b.flights.eraseIdx i).flatMap todo) := by
    have hset := flights_perm (b := b.advance i w') (i := i) (w := w')
      (List.getElem?_set_self hi)
    rw [show (b.advance i w').flights.eraseIdx i = b.flights.eraseIdx i from
      List.eraseIdx_set_eq] at hset
    exact hset.flatMap_right todo
  rw [pending, pending, ← List.append_assoc]
  refine List.Perm.append_right _ ?_
  refine ((hnew.append_left done).trans ?_).trans hold.symm
  rw [← List.append_assoc, List.flatMap_cons]
  exact htodo.append_right _

theorem pending_finish (hw : b.flights[i]? = some w) (htodo : todo w = []) :
    ((b.finish i).pending wants todo).Perm (b.pending wants todo) := by
  refine List.Perm.append_right _ ?_
  have hold := (flights_perm hw).flatMap_right todo
  rw [List.flatMap_cons, htodo, List.nil_append] at hold
  exact hold.symm

end Batcher
