import HermesMq.OrdMap
import Mathlib.Data.Finset.Dedup
import Mathlib.Data.Finset.Filter
import Mathlib.Data.Finset.Lattice.Basic

/-!
# Write-behind maps

A map kept in two halves: a slow store, and a buffer of entries on their
way to it. Entries are inserted into the buffer and queued; a writer
takes a batch off the front of the queue, writes it to the store, and
then takes it out of the buffer. A write may fail, and then its batch is
*lost* to the store: it stays in the buffer, off the queue.

`Stored` says at any moment which entries the store has, and `Placed` also
which the buffer has. Each step of the writer and each kind of update keeps
them, and while `Placed` holds the two halves together are the map
(`Placed.merged`).
-/

namespace WriteBehind

variable {K V : Type} [LinearOrder K]

/-- Which entries of `log` the store has: all but those in `toWrite`, which
are queued, and those in `lost`, whose write failed. `toRemove` are written
and not yet out of the buffer. -/
structure Stored (log store : OrdMap K V) (toRemove toWrite : List (K × V)) (lost : Finset K) :
    Prop where
  nodup : ((toRemove ++ toWrite).map Prod.fst).Nodup
  current : ∀ p ∈ toRemove ++ toWrite, log.get? p.1 = some p.2
  lost_log : ∀ k ∈ lost, k ∉ (toRemove ++ toWrite).map Prod.fst ∧ ∃ v, log.get? k = some v
  store_iff : ∀ k v, store.get? k = some v ↔
    log.get? k = some v ∧ k ∉ toWrite.map Prod.fst ∧ k ∉ lost

/-- Where the entries of `log` are. -/
structure Placed (log buffer store : OrdMap K V) (toRemove toWrite : List (K × V))
    (lost : Finset K) : Prop extends Stored log store toRemove toWrite lost where
  buffer_iff : ∀ k v, buffer.get? k = some v ↔
    log.get? k = some v ∧ (k ∈ (toRemove ++ toWrite).map Prod.fst ∨ k ∈ lost)

/-! ## The store -/

namespace Stored

variable {log store : OrdMap K V} {toRemove toWrite batch rest : List (K × V)} {lost : Finset K}

/-- Everything is in the store at first. -/
theorem start (store : OrdMap K V) : Stored store store [] [] ∅ where
  nodup := List.nodup_nil
  current := by simp
  lost_log := by simp
  store_iff := by simp

theorem store_sub (h : Stored log store toRemove toWrite lost) {k : K} {v : V}
    (hk : store.get? k = some v) : log.get? k = some v :=
  ((h.store_iff k v).mp hk).1

/-- New keys go to the back of the queue. -/
theorem insert (h : Stored log store toRemove toWrite lost) {l : List (K × V)}
    (hnd : (l.map Prod.fst).Nodup) (hnew : ∀ k ∈ l.map Prod.fst, log.get? k = none) :
    Stored (log.insertAll l) store toRemove (toWrite ++ l) lost := by
  have hold : ∀ {k v}, log.get? k = some v → k ∉ l.map Prod.fst := fun hk hl => by
    rw [hnew _ hl] at hk
    cases hk
  have hkeep : ∀ {k v}, log.get? k = some v → (log.insertAll l).get? k = some v := fun hk => by
    rw [OrdMap.get?_insertAll_of_not_mem (hold hk), hk]
  have hqueue : ∀ k ∈ (toRemove ++ toWrite).map Prod.fst, k ∉ l.map Prod.fst := fun k hk => by
    obtain ⟨p, hp, rfl⟩ := List.mem_map.mp hk
    exact hold (h.current p hp)
  refine ⟨?_, ?_, fun k hk => ?_, fun k v => ?_⟩
  · rw [← List.append_assoc, List.map_append]
    exact h.nodup.append hnd hqueue
  · rw [← List.append_assoc]
    intro p hp
    rcases List.mem_append.mp hp with hp | hp
    · exact hkeep (h.current p hp)
    · exact OrdMap.get?_insertAll_of_mem hnd hp _
  · obtain ⟨hq, v, hv⟩ := h.lost_log k hk
    refine ⟨?_, v, hkeep hv⟩
    rw [← List.append_assoc, List.map_append, List.mem_append, not_or]
    exact ⟨hq, hold hv⟩
  · rw [OrdMap.get?_insertAll_eq_some hnd, h.store_iff, List.map_append, List.mem_append, not_or]
    constructor
    · rintro ⟨hv, hw, hl⟩
      exact ⟨Or.inr ⟨hold hv, hv⟩, ⟨hw, hold hv⟩, hl⟩
    · rintro ⟨hl | ⟨-, hv⟩, ⟨hw, hnot⟩, hlost⟩
      · exact absurd (List.mem_map_of_mem hl) hnot
      · exact ⟨hv, hw, hlost⟩

/-- With nothing on its way, keys are dropped. -/
theorem filter (h : Stored log store [] [] lost) (p : K → Bool) :
    Stored (log.filter fun k _ => p k) (store.filter fun k _ => p k) [] []
      (lost.filter fun k => p k) := by
  refine ⟨List.nodup_nil, by simp, fun k hk => ?_, fun k v => ?_⟩
  · rw [Finset.mem_filter] at hk
    obtain ⟨hq, v, hv⟩ := h.lost_log k hk.1
    exact ⟨hq, v, OrdMap.get?_filter_eq_some.mpr ⟨hv, hk.2⟩⟩
  · rw [OrdMap.get?_filter_eq_some, OrdMap.get?_filter_eq_some, h.store_iff, Finset.mem_filter]
    tauto

/-- A batch goes to the store. -/
theorem write (h : Stored log store [] (batch ++ rest) lost) :
    Stored log (store.insertAll batch) batch rest lost := by
  have hcur : ∀ p ∈ batch ++ rest, log.get? p.1 = some p.2 := h.current
  have hnd := h.nodup
  rw [List.nil_append, List.map_append] at hnd
  refine ⟨h.nodup, h.current, h.lost_log, fun k v => ?_⟩
  rw [OrdMap.get?_insertAll_eq_some (hnd.sublist (List.sublist_append_left ..)), h.store_iff,
    List.map_append, List.mem_append]
  constructor
  · rintro (hb | ⟨-, hv, hw, hl⟩)
    · have hk := List.mem_map_of_mem hb (f := Prod.fst)
      refine ⟨hcur (k, v) (List.mem_append_left _ hb), List.disjoint_of_nodup_append hnd hk,
        fun hl => (h.lost_log k hl).1 ?_⟩
      rw [List.nil_append, List.map_append]
      exact List.mem_append_left _ hk
    · exact ⟨hv, fun hr => hw (Or.inr hr), hl⟩
  · rintro ⟨hv, hr, hl⟩
    by_cases hb : k ∈ batch.map Prod.fst
    · obtain ⟨p, hp, rfl⟩ := List.mem_map.mp hb
      have hp' := hcur p (List.mem_append_left _ hp)
      rw [hv] at hp'
      exact Or.inl (Option.some.inj hp' ▸ hp)
    · exact Or.inr ⟨hb, hv, not_or.mpr ⟨hb, hr⟩, hl⟩

/-- A batch fails to be written. -/
theorem fail (h : Stored log store [] (batch ++ rest) lost) :
    Stored log store [] rest (lost ∪ (batch.map Prod.fst).toFinset) := by
  have hcur : ∀ p ∈ batch ++ rest, log.get? p.1 = some p.2 := h.current
  have hnd := h.nodup
  rw [List.nil_append, List.map_append] at hnd
  refine ⟨hnd.sublist (List.sublist_append_right ..),
    fun p hp => hcur p (List.mem_append_right _ hp), fun k hk => ?_, fun k v => ?_⟩
  · rcases Finset.mem_union.mp hk with hk | hk
    · refine ⟨fun hr => (h.lost_log k hk).1 ?_, (h.lost_log k hk).2⟩
      rw [List.nil_append, List.map_append]
      exact List.mem_append_right _ hr
    · rw [List.mem_toFinset] at hk
      refine ⟨List.disjoint_of_nodup_append hnd hk, ?_⟩
      obtain ⟨p, hp, rfl⟩ := List.mem_map.mp hk
      exact ⟨p.2, hcur p (List.mem_append_left _ hp)⟩
  · rw [h.store_iff, List.map_append, List.mem_append, Finset.mem_union, List.mem_toFinset]
    tauto

/-- A written batch leaves the buffer. -/
theorem remove (h : Stored log store batch rest lost) : Stored log store [] rest lost := by
  have hnd := h.nodup
  rw [List.map_append] at hnd
  refine ⟨hnd.sublist (List.sublist_append_right ..),
    fun p hp => h.current p (List.mem_append_right _ hp), fun k hk => ?_, h.store_iff⟩
  refine ⟨fun hr => (h.lost_log k hk).1 ?_, (h.lost_log k hk).2⟩
  rw [List.map_append]
  exact List.mem_append_right _ hr

end Stored

/-! ## The two halves -/

namespace Placed

variable {log buffer store : OrdMap K V} {toRemove toWrite batch rest : List (K × V)}
  {lost : Finset K}

theorem start (store : OrdMap K V) : Placed store ∅ store [] [] ∅ where
  toStored := .start store
  buffer_iff := by simp

theorem buffer_sub (h : Placed log buffer store toRemove toWrite lost) {k : K} {v : V}
    (hk : buffer.get? k = some v) : log.get? k = some v :=
  ((h.buffer_iff k v).mp hk).1

/-- The buffer over the store is the map. -/
theorem merged (h : Placed log buffer store toRemove toWrite lost) (k : K) :
    (buffer.get? k).or (store.get? k) = log.get? k := by
  cases hb : buffer.get? k with
  | some v => exact (h.buffer_sub hb).symm
  | none =>
      rw [Option.none_or]
      ext v
      refine ⟨h.store_sub, fun hv => (h.store_iff k v).mpr ⟨hv, fun hk => ?_, fun hk => ?_⟩⟩
      · have hin : k ∈ (toRemove ++ toWrite).map Prod.fst := by
          rw [List.map_append]
          exact List.mem_append_right _ hk
        rw [(h.buffer_iff k v).mpr ⟨hv, Or.inl hin⟩] at hb
        cases hb
      · rw [(h.buffer_iff k v).mpr ⟨hv, Or.inr hk⟩] at hb
        cases hb

/-- With nothing on its way and nothing lost, the buffer is empty. -/
theorem buffer_empty (h : Placed log buffer store [] [] ∅) : buffer = ∅ := by
  refine OrdMap.ext_get? fun k => Option.ext fun v => ?_
  rw [h.buffer_iff]
  simp

/-- New keys go into the buffer and to the back of the queue. -/
theorem insert (h : Placed log buffer store toRemove toWrite lost) {l : List (K × V)}
    (hnd : (l.map Prod.fst).Nodup) (hnew : ∀ k ∈ l.map Prod.fst, log.get? k = none) :
    Placed (log.insertAll l) (buffer.insertAll l) store toRemove (toWrite ++ l) lost := by
  refine ⟨h.toStored.insert hnd hnew, fun k v => ?_⟩
  rw [OrdMap.get?_insertAll_eq_some hnd, OrdMap.get?_insertAll_eq_some hnd, h.buffer_iff,
    ← List.append_assoc, @List.map_append _ _ Prod.fst (toRemove ++ toWrite) l, List.mem_append]
  constructor
  · rintro (hl | ⟨hl, hv, hk⟩)
    · exact ⟨Or.inl hl, Or.inl (Or.inr (List.mem_map_of_mem hl))⟩
    · exact ⟨Or.inr ⟨hl, hv⟩, hk.imp_left Or.inl⟩
  · rintro ⟨hl | ⟨hl, hv⟩, hk⟩
    · exact Or.inl hl
    · exact Or.inr ⟨hl, hv, hk.imp_left fun hk => hk.resolve_right hl⟩

/-- With nothing on its way, keys are dropped from both halves alike. -/
theorem filter (h : Placed log buffer store [] [] lost) (p : K → Bool) :
    Placed (log.filter fun k _ => p k) (buffer.filter fun k _ => p k)
      (store.filter fun k _ => p k) [] [] (lost.filter fun k => p k) := by
  refine ⟨h.toStored.filter p, fun k v => ?_⟩
  rw [OrdMap.get?_filter_eq_some, OrdMap.get?_filter_eq_some, h.buffer_iff, Finset.mem_filter]
  tauto

/-- A batch goes to the store. -/
theorem write (h : Placed log buffer store [] (batch ++ rest) lost) :
    Placed log buffer (store.insertAll batch) batch rest lost :=
  ⟨h.toStored.write, h.buffer_iff⟩

/-- A written batch leaves the buffer. -/
theorem remove (h : Placed log buffer store batch rest lost) :
    Placed log (buffer.eraseAll (batch.map Prod.fst)) store [] rest lost := by
  have hnd := h.nodup
  rw [List.map_append] at hnd
  refine ⟨h.toStored.remove, fun k v => ?_⟩
  rw [OrdMap.get?_eraseAll_eq_some, h.buffer_iff, List.map_append, List.mem_append,
    List.nil_append]
  constructor
  · rintro ⟨hb, hv, (hk | hk) | hk⟩
    · exact absurd hk hb
    · exact ⟨hv, Or.inl hk⟩
    · exact ⟨hv, Or.inr hk⟩
  · rintro ⟨hv, hk | hk⟩
    · exact ⟨fun hb => List.disjoint_of_nodup_append hnd hb hk, hv, Or.inl (Or.inr hk)⟩
    · refine ⟨fun hb => (h.lost_log k hk).1 ?_, hv, Or.inr hk⟩
      rw [List.map_append]
      exact List.mem_append_left _ hb

end Placed

/-! ## Phases -/

/-- How far an entry of the map has come. -/
inductive Phase where
  /-- Only the buffer has it. -/
  | queued
  /-- Both halves have it. -/
  | written
  /-- Only the store has it. -/
  | stored
deriving DecidableEq

def Phase.rank : Phase → Nat
  | .queued => 0
  | .written => 1
  | .stored => 2

def phase (toRemove toWrite : List (K × V)) (k : K) : Phase :=
  if k ∈ toWrite.map Prod.fst then .queued
  else if k ∈ toRemove.map Prod.fst then .written
  else .stored

theorem phase_append {toRemove toWrite l : List (K × V)} {k : K} (hk : k ∉ l.map Prod.fst) :
    phase toRemove (toWrite ++ l) k = phase toRemove toWrite k := by
  simp only [phase, List.map_append, List.mem_append, hk, or_false]

variable {log buffer store : OrdMap K V} {toRemove toWrite batch rest : List (K × V)}
  {lost : Finset K}

/-- Writing a batch moves its entries one phase on, and no others. -/
theorem Stored.phase_write (h : Stored log store [] (batch ++ rest) lost) (k : K) :
    if k ∈ batch.map Prod.fst then
      phase [] (batch ++ rest) k = .queued ∧ phase batch rest k = .written
    else phase batch rest k = phase [] (batch ++ rest) k := by
  have hnd := h.nodup
  rw [List.nil_append, List.map_append] at hnd
  split_ifs with hk
  · have hr : k ∉ rest.map Prod.fst := List.disjoint_of_nodup_append hnd hk
    rw [phase, phase, if_neg hr, if_pos hk, List.map_append,
      if_pos (List.mem_append_left _ hk)]
    exact ⟨rfl, rfl⟩
  · simp only [phase, List.map_append, List.mem_append, hk, false_or, if_false, List.map_nil,
      List.not_mem_nil]

/-- So does removing one. -/
theorem Stored.phase_remove (h : Stored log store batch rest lost) (k : K) :
    if k ∈ batch.map Prod.fst then
      phase batch rest k = .written ∧ phase [] rest k = .stored
    else phase [] rest k = phase batch rest k := by
  have hnd := h.nodup
  rw [List.map_append] at hnd
  split_ifs with hk
  · have hr : k ∉ rest.map Prod.fst := List.disjoint_of_nodup_append hnd hk
    rw [phase, phase, if_neg hr, if_pos hk, if_neg hr]
    exact ⟨rfl, if_neg List.not_mem_nil⟩
  · simp only [phase, hk, if_false, List.map_nil, List.not_mem_nil]

/-- Which half has an entry, when no write failed. -/
theorem Placed.buffer_phase (h : Placed log buffer store toRemove toWrite ∅) (k : K) :
    buffer.get? k = if phase toRemove toWrite k = .stored then none else log.get? k := by
  ext v
  rw [h.buffer_iff, List.map_append, List.mem_append, phase]
  split_ifs <;> simp_all

theorem Stored.store_phase (h : Stored log store toRemove toWrite ∅) (k : K) :
    store.get? k = if phase toRemove toWrite k = .queued then none else log.get? k := by
  ext v
  rw [h.store_iff, phase]
  split_ifs <;> simp_all

end WriteBehind
