import HermesMq.LogStore
import HermesMq.Machine
import Mathlib.Data.Finset.Dedup

/-!
# Runs of the log store

The log store next to the thread that calls it and next to a plain map,
the log as its callers see it. Calls come one at a time; the flusher
takes its steps anywhere between theirs, and its writes may fail.

The machine also carries the history its theorems speak of: the plain
map, the append that wrote each index, and the indices whose write
failed.
-/

namespace HermesMq

/-! ## The log as a plain map -/

/-- The log as its callers see it. -/
structure LogSpec where
  entries : OrdMap Nat Entry := ∅
  purged : Option LogId := none
deriving DecidableEq

namespace LogSpec

def append (spec : LogSpec) (es : List Entry) : LogSpec :=
  { spec with entries := spec.entries.insertAll (es.map fun e => (e.logId.index, e)) }

def truncate (spec : LogSpec) (index : Nat) : LogSpec :=
  { spec with entries := spec.entries.filter fun i _ => i < index }

def purge (spec : LogSpec) (upto : LogId) : LogSpec :=
  { entries := spec.entries.filter fun i _ => upto.index < i
    purged := if spec.purged.all (·.index < upto.index) then some upto else spec.purged }

/-- Raft appends above the end of the log, which is the purge point when
the log is empty, in increasing order. -/
def Appendable (spec : LogSpec) (es : List Entry) : Prop :=
  (es.map (·.logId.index)).Pairwise (· < ·) ∧
    ∀ e ∈ es, (∀ i ∈ spec.entries.keys, i < e.logId.index) ∧
      ∀ p ∈ spec.purged.toList, p.index < e.logId.index

/-- Raft's purge points do not go back. -/
def Purgeable (spec : LogSpec) (upto : LogId) : Prop :=
  ∀ p ∈ spec.purged.toList, p.index ≤ upto.index

instance (spec : LogSpec) (es : List Entry) : Decidable (spec.Appendable es) :=
  inferInstanceAs (Decidable (_ ∧ _))

instance (spec : LogSpec) (upto : LogId) : Decidable (spec.Purgeable upto) :=
  inferInstanceAs (Decidable (∀ p ∈ spec.purged.toList, _))

end LogSpec

/-! ## Calls and steps -/

/-- The call in progress. -/
inductive LogCall where
  | none
  /-- The entries are in the pending map, the job is not sent yet. -/
  | appending (batch : List (Nat × Bytes)) (callback : Nat)
  | truncating (barrier : Nat) (index : Nat)
  | purging (barrier : Nat) (upto : LogId)
  /-- A bare barrier. -/
  | flushing (barrier : Nat)
deriving DecidableEq

structure LogSystem where
  store : LogStore := {}
  call : LogCall := .none
  /-- The next number for a callback or barrier. -/
  nextId : Nat := 0
  spec : LogSpec := {}
  /-- The append that wrote an index last, as long as the log has it. -/
  writer : OrdMap Nat Nat := ∅
  /-- The indices of the log whose write failed. -/
  lost : Finset Nat := ∅

inductive LogEvent where
  | append (es : List Entry)
  /-- The append sends its job and returns. -/
  | send
  | truncate (index : Nat)
  | purge (upto : LogId)
  | barrier
  /-- The barrier is answered, the call goes on and returns. -/
  | finish
  | flush (ok : Bool)
deriving DecidableEq

namespace LogSystem

variable (entryCodec : Codec Entry) (logIdCodec : Codec LogId)

/-- A call that starts with a barrier. -/
def await (s : LogSystem) (call : Nat → LogCall) : Option LogSystem :=
  if s.call = .none then
    some { s with store := s.store.send (.barrier s.nextId), call := call s.nextId
                  nextId := s.nextId + 1 }
  else none

/-- The indices that are lost when the flusher's next step is a write
that fails. -/
def failing (s : LogSystem) (ok : Bool) : Finset Nat :=
  match s.store.flusher with
  | .ready batch => if ok then ∅ else (batch.entries.map Prod.fst).toFinset
  | _ => ∅

/-- The rest of a call after its barrier. -/
def finish (s : LogSystem) : Option LogSystem :=
  match s.call with
  | .none | .appending .. => none
  | .flushing n => if n ∈ s.store.released then some { s with call := .none } else none
  | .truncating n index =>
      if n ∈ s.store.released then
        some { s with store := s.store.truncate index, call := .none
                      spec := s.spec.truncate index
                      writer := s.writer.filter fun i _ => i < index
                      lost := s.lost.filter fun i => i < index }
      else none
  | .purging n upto =>
      if n ∈ s.store.released then
        match s.store.purge logIdCodec upto with
        | .error _ => none
        | .ok store =>
            some { s with store := store, call := .none
                          spec := s.spec.purge upto
                          writer := s.writer.filter fun i _ => upto.index < i
                          lost := s.lost.filter fun i => upto.index < i }
      else none

/-- One step; `none` when the event cannot happen in this state. -/
def step (s : LogSystem) : LogEvent → Option LogSystem
  | .append es =>
      if s.call = .none ∧ s.spec.Appendable es then
        let batch := LogStore.encodeEntries entryCodec es
        some { s with store := s.store.insertPending batch
                      call := .appending batch s.nextId
                      nextId := s.nextId + 1
                      spec := s.spec.append es
                      writer := s.writer.insertAll (es.map fun e => (e.logId.index, s.nextId)) }
      else none
  | .send =>
      match s.call with
      | .appending batch callback =>
          some { s with store := s.store.send (.append batch (some callback)), call := .none }
      | _ => none
  | .truncate index => s.await (.truncating · index)
  | .purge upto => if s.spec.Purgeable upto then s.await (.purging · upto) else none
  | .barrier => s.await .flushing
  | .finish => s.finish logIdCodec
  | .flush ok =>
      (s.store.flushStep ok).map fun store =>
        { s with store := store, lost := s.lost ∪ s.failing ok }

def run (s : LogSystem) (evs : List LogEvent) : Option LogSystem :=
  Machine.run (step entryCodec logIdCodec) s evs

end LogSystem

/-! ## Small logs -/

/-- A codec that can be evaluated on the first two blank entries. -/
noncomputable def blankCodec : Codec Entry :=
  (Codec.ofCountable Entry).shorten [blankAt 1, blankAt 2]

/-! ## What a step does -/

namespace LogStore

/-- The steps of the flusher thread. -/
inductive FlushMove (ok : Bool) : LogStore → LogStore → Prop
  | receive {s job rest batch} (hjobs : s.jobs = job :: rest)
      (hf : (s.flusher = .idle ∧ batch = {}) ∨ s.flusher = .collecting batch) :
      FlushMove ok s { s with jobs := rest, flusher := batch.receive job }
  | stop {s batch} (hf : s.flusher = .collecting batch) (hjobs : s.jobs = []) :
      FlushMove ok s { s with flusher := .ready batch }
  | skip {s batch} (hf : s.flusher = .ready batch) (hempty : batch.entries = []) :
      FlushMove ok s (s.complete batch true)
  | write {s batch} (hf : s.flusher = .ready batch) (hok : ok = true) :
      FlushMove ok s { s with db := s.db.appendLog batch.entries, flusher := .written batch }
  | fail {s batch} (hf : s.flusher = .ready batch) (hok : ok = false) :
      FlushMove ok s (s.complete batch false)
  | remove {s batch} (hf : s.flusher = .written batch) :
      FlushMove ok s
        ({ s with pending := s.pending.eraseAll (batch.entries.map Prod.fst) }.complete
          batch true)

theorem flushStep_move {s s' : LogStore} {ok : Bool} (h : s.flushStep ok = some s') :
    FlushMove ok s s' := by
  unfold flushStep at h
  split at h
  · cases h
  · rename_i job rest hf hjobs
    obtain rfl := Option.some.inj h
    exact .receive hjobs (Or.inl ⟨hf, rfl⟩)
  · rename_i batch hf hjobs
    obtain rfl := Option.some.inj h
    exact .stop hf hjobs
  · rename_i batch job rest hf hjobs
    obtain rfl := Option.some.inj h
    exact .receive hjobs (Or.inr hf)
  · rename_i batch hf
    split_ifs at h with hempty hok
    · obtain rfl := Option.some.inj h
      exact .skip hf hempty
    · obtain rfl := Option.some.inj h
      exact .write hf hok
    · obtain rfl := Option.some.inj h
      exact .fail hf (Bool.eq_false_iff.mpr hok)
  · rename_i batch hf
    obtain rfl := Option.some.inj h
    exact .remove hf

end LogStore

/-- The barrier a call waits for. -/
def LogCall.barrier? : LogCall → Option Nat
  | .none | .appending .. => .none
  | .truncating n _ | .purging n _ | .flushing n => some n

namespace LogSystem

variable (entryCodec : Codec Entry) (logIdCodec : Codec LogId)

/-- The steps of the machine. -/
inductive Move : LogSystem → LogEvent → LogSystem → Prop
  | append {s es} (hcall : s.call = .none) (hes : s.spec.Appendable es) :
      Move s (.append es)
        { s with store := s.store.insertPending (LogStore.encodeEntries entryCodec es)
                 call := .appending (LogStore.encodeEntries entryCodec es) s.nextId
                 nextId := s.nextId + 1
                 spec := s.spec.append es
                 writer := s.writer.insertAll (es.map fun e => (e.logId.index, s.nextId)) }
  | send {s batch callback} (hcall : s.call = .appending batch callback) :
      Move s .send { s with store := s.store.send (.append batch (some callback)), call := .none }
  | wait {s e call} (he : ∀ ok, e ≠ .flush ok) (hcall : s.call = .none)
      (hbarrier : call.barrier? = some s.nextId)
      (hpurge : ∀ n upto, call = .purging n upto → s.spec.Purgeable upto) :
      Move s e { s with store := s.store.send (.barrier s.nextId), call := call
                        nextId := s.nextId + 1 }
  | answered {s n} (hcall : s.call = .flushing n) (hn : n ∈ s.store.released) :
      Move s .finish { s with call := .none }
  | truncated {s n index} (hcall : s.call = .truncating n index) (hn : n ∈ s.store.released) :
      Move s .finish
        { s with store := s.store.truncate index, call := .none
                 spec := s.spec.truncate index
                 writer := s.writer.filter fun i _ => i < index
                 lost := s.lost.filter fun i => i < index }
  | purged {s n upto store} (hcall : s.call = .purging n upto) (hn : n ∈ s.store.released)
      (hstore : s.store.purge logIdCodec upto = .ok store) :
      Move s .finish
        { s with store := store, call := .none
                 spec := s.spec.purge upto
                 writer := s.writer.filter fun i _ => upto.index < i
                 lost := s.lost.filter fun i => upto.index < i }
  | flush {s ok store} (hmove : LogStore.FlushMove ok s.store store) :
      Move s (.flush ok) { s with store := store, lost := s.lost ∪ s.failing ok }

variable {entryCodec logIdCodec} {s s' : LogSystem}

theorem await_move {e : LogEvent} {call : Nat → LogCall} (h : s.await call = some s')
    (he : ∀ ok, e ≠ .flush ok)
    (hbarrier : (call s.nextId).barrier? = some s.nextId)
    (hpurge : ∀ n upto, call s.nextId = .purging n upto → s.spec.Purgeable upto) :
    Move entryCodec logIdCodec s e s' := by
  obtain ⟨hcall, h⟩ := Option.ite_none_right_eq_some.mp h
  obtain rfl := Option.some.inj h
  exact .wait he hcall hbarrier hpurge

theorem finish_move (h : s.finish logIdCodec = some s') :
    Move entryCodec logIdCodec s .finish s' := by
  unfold finish at h
  split at h
  · cases h
  · cases h
  · rename_i n hcall
    obtain ⟨hn, h⟩ := Option.ite_none_right_eq_some.mp h
    obtain rfl := Option.some.inj h
    exact .answered hcall hn
  · rename_i n index hcall
    obtain ⟨hn, h⟩ := Option.ite_none_right_eq_some.mp h
    obtain rfl := Option.some.inj h
    exact .truncated hcall hn
  · rename_i n upto hcall
    obtain ⟨hn, h⟩ := Option.ite_none_right_eq_some.mp h
    split at h
    · cases h
    · rename_i store hstore
      obtain rfl := Option.some.inj h
      exact .purged hcall hn hstore

theorem step_move {e : LogEvent} (h : s.step entryCodec logIdCodec e = some s') :
    Move entryCodec logIdCodec s e s' := by
  cases e with
  | append es =>
      obtain ⟨⟨hcall, hes⟩, h⟩ := Option.ite_none_right_eq_some.mp h
      obtain rfl := Option.some.inj h
      exact .append hcall hes
  | send =>
      simp only [step] at h
      split at h
      · rename_i batch callback hcall
        obtain rfl := Option.some.inj h
        exact .send hcall
      · cases h
  | truncate index =>
      have hwait : s.await (.truncating · index) = some s' := h
      exact await_move hwait (fun _ => LogEvent.noConfusion) rfl
        fun _ _ hcall => LogCall.noConfusion hcall
  | purge upto =>
      obtain ⟨hupto, h⟩ := Option.ite_none_right_eq_some.mp h
      refine await_move h (fun _ => LogEvent.noConfusion) rfl fun n upto' hcall => ?_
      obtain ⟨-, rfl⟩ := LogCall.purging.inj hcall
      exact hupto
  | barrier =>
      have hwait : s.await .flushing = some s' := h
      exact await_move hwait (fun _ => LogEvent.noConfusion) rfl
        fun _ _ hcall => LogCall.noConfusion hcall
  | finish => exact finish_move h
  | flush ok =>
      obtain ⟨store, hstore, rfl⟩ := Option.map_eq_some_iff.mp h
      exact .flush (LogStore.flushStep_move hstore)

end LogSystem

end HermesMq
