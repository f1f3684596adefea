import HermesMq.OrdMap
import Mathlib.Order.MinMax

/-!
# A log behind a queue and a base

A log is written to a store by someone else, in order: what is not written
yet waits in a queue. Below a base, which a checkpoint covers, the store may
hold anything; from the base on, store and queue together hold the log
(`Journal`).

What a crash leaves is the log up to `durable`: the store alone is then a
journal of that part (`Journal.crash`), so a run with any number of crashes
in it is one more induction over the same steps.
-/

namespace Journal

/-- The values under consecutive numbers. -/
def numbered {V : Type} (start : Nat) (vs : List V) : List (Nat × V) :=
  (vs.zipIdx start).map Prod.swap

section Numbered

variable {V : Type} {start i : Nat} {vs : List V} {v : V}

theorem mem_numbered : (i, v) ∈ numbered start vs ↔ start ≤ i ∧ vs[i - start]? = some v := by
  rw [numbered, List.mem_map]
  constructor
  · rintro ⟨⟨w, k⟩, hmem, heq⟩
    cases heq
    exact List.mk_mem_zipIdx_iff_le_and_getElem?_sub.mp hmem
  · intro h
    exact ⟨(v, i), List.mk_mem_zipIdx_iff_le_and_getElem?_sub.mpr h, rfl⟩

theorem numbered_keys (start : Nat) (vs : List V) :
    (numbered start vs).map Prod.fst = List.range' start vs.length := by
  rw [numbered, List.map_map]
  exact List.zipIdx_map_snd start vs

theorem numbered_values (start : Nat) (vs : List V) :
    (numbered start vs).map Prod.snd = vs := by
  rw [numbered, List.map_map]
  exact List.zipIdx_map_fst start vs

/-- A map with consecutive keys, read in order. -/
theorem values_of_numbered {m : OrdMap Nat V} (start : Nat) (vs : List V)
    (h : ∀ i v, m.get? i = some v ↔ start ≤ i ∧ vs[i - start]? = some v) : m.values = vs := by
  have hsorted : (numbered start vs).Pairwise fun a b => a.1 < b.1 := by
    rw [← List.pairwise_map (f := Prod.fst) (R := (· < ·)), numbered_keys]
    exact List.pairwise_lt_range'
  have hm : m = ⟨numbered start vs, hsorted⟩ := by
    refine OrdMap.ext_get? fun i => Option.ext fun v => ?_
    rw [h, OrdMap.get?_eq_some]
    exact mem_numbered.symm
  rw [hm]
  exact numbered_values start vs

end Numbered

end Journal

variable {V : Type} {log : List V} {base : Nat} {store : OrdMap Nat V} {queue : List (Nat × V)}

structure Journal (log : List V) (base : Nat) (store : OrdMap Nat V) (queue : List (Nat × V)) :
    Prop where
  base_le : base ≤ log.length
  sorted : (queue.map Prod.fst).Pairwise (· < ·)
  queued : ∀ p ∈ queue, p.1 < log.length ∧ (base ≤ p.1 → log[p.1]? = some p.2)
  held : ∀ i v, base ≤ i → log[i]? = some v → (i, v) ∈ queue ∨ store.get? i = some v
  beyond : ∀ i, log.length ≤ i → store.get? i = none
  /-- What the store has of the log comes before what it will get. -/
  behind : ∀ i v, base ≤ i → store.get? i = some v → ∀ p ∈ queue, i < p.1

namespace Journal

/-- How much of the log a crash leaves. -/
def durable (log : List V) (base : Nat) (queue : List (Nat × V)) : Nat :=
  max base ((queue.map Prod.fst).head?.getD log.length)

theorem base_le_durable : base ≤ durable log base queue := Nat.le_max_left ..

theorem durable_nil (h : base ≤ log.length) :
    durable log base ([] : List (Nat × V)) = log.length :=
  Nat.max_eq_right h

theorem le_durable {c : Nat} (hlog : c ≤ log.length) (hqueue : ∀ p ∈ queue, c ≤ p.1) :
    c ≤ durable log base queue := by
  refine le_max_of_le_right ?_
  cases queue with
  | nil => exact hlog
  | cons p rest => exact hqueue p List.mem_cons_self

/-- An append makes nothing less durable. -/
theorem durable_append (vs : List V) :
    durable log base queue ≤ durable (log ++ vs) base (queue ++ numbered log.length vs) := by
  refine max_le base_le_durable (le_max_of_le_right ?_)
  cases queue with
  | cons p rest => exact le_rfl
  | nil =>
      cases vs with
      | nil => simp [numbered]
      | cons v rest => exact le_rfl

theorem durable_rebase {b : Nat} (hb : base ≤ b) :
    durable log base queue ≤ durable log b queue :=
  max_le_max hb le_rfl

theorem empty_start : Journal ([] : List V) 0 ∅ [] where
  base_le := le_rfl
  sorted := List.Pairwise.nil
  queued p hp := absurd hp List.not_mem_nil
  held i v _ h := by cases h
  beyond i _ := rfl
  behind i v _ h := by cases h

variable (h : Journal log base store queue)
include h

theorem durable_le : durable log base queue ≤ log.length := by
  refine max_le h.base_le ?_
  cases hq : queue with
  | nil => exact le_rfl
  | cons p rest => exact (h.queued p (hq ▸ List.mem_cons_self)).1.le

/-- Nothing waits that is below `durable`. -/
theorem durable_le_queued {p : Nat × V} (hp : p ∈ queue) (hbase : base ≤ p.1) :
    durable log base queue ≤ p.1 := by
  refine max_le hbase ?_
  cases hq : queue with
  | nil =>
      rw [hq] at hp
      cases hp
  | cons first rest =>
      have hsorted := h.sorted
      rw [hq] at hp hsorted
      rcases List.mem_cons.mp hp with rfl | hrest
      · exact le_rfl
      · exact ((List.pairwise_cons.mp hsorted).1 p.1 (List.mem_map_of_mem hrest)).le

/-- From the base on, the store is the log up to `durable`. -/
theorem get?_store {i : Nat} (hi : base ≤ i) :
    store.get? i = (log.take (durable log base queue))[i]? := by
  rw [List.getElem?_take]
  split_ifs with hlt
  · have hlen := hlt.trans_le h.durable_le
    rcases h.held i _ hi (List.getElem?_eq_getElem hlen) with hq | hs
    · exact absurd (h.durable_le_queued hq hi) (Nat.not_le.mpr hlt)
    · rw [hs, List.getElem?_eq_getElem hlen]
  · cases hs : store.get? i with
    | none => rfl
    | some v =>
        -- the store would have it before the first that waits
        exfalso
        have hle : durable log base queue ≤ i := Nat.not_lt.mp hlt
        cases hq : queue with
        | nil =>
            rw [hq, durable_nil h.base_le] at hle
            rw [h.beyond i hle] at hs
            cases hs
        | cons p rest =>
            have hp := h.behind i v hi hs p (hq ▸ List.mem_cons_self)
            have hfirst : p.1 ≤ durable log base queue := by
              rw [hq]
              exact Nat.le_max_right ..
            omega

/-! ## Steps -/

theorem append (vs : List V) :
    Journal (log ++ vs) base store (queue ++ numbered log.length vs) where
  base_le := h.base_le.trans (by simp)
  sorted := by
    rw [List.map_append, List.pairwise_append, numbered_keys]
    refine ⟨h.sorted, List.pairwise_lt_range', fun i hi k hk => ?_⟩
    obtain ⟨p, hp, rfl⟩ := List.mem_map.mp hi
    exact (h.queued p hp).1.trans_le (List.mem_range'_1.mp hk).1
  queued p hp := by
    rcases List.mem_append.mp hp with hp | hp
    · obtain ⟨hlt, hval⟩ := h.queued p hp
      refine ⟨hlt.trans_le (by simp), fun hbase => ?_⟩
      rw [List.getElem?_append_left hlt, hval hbase]
    · obtain ⟨hle, hget⟩ := mem_numbered.mp hp
      obtain ⟨hlt, -⟩ := List.getElem?_eq_some_iff.mp hget
      refine ⟨?_, fun _ => ?_⟩
      · rw [List.length_append]
        omega
      · rw [List.getElem?_append_right hle, hget]
  held i v hi hget := by
    by_cases hlt : i < log.length
    · rw [List.getElem?_append_left hlt] at hget
      exact (h.held i v hi hget).imp_left (List.mem_append_left _)
    · have hle := Nat.not_lt.mp hlt
      rw [List.getElem?_append_right hle] at hget
      exact Or.inl (List.mem_append_right _ (mem_numbered.mpr ⟨hle, hget⟩))
  beyond i hi := h.beyond i (by
    rw [List.length_append] at hi
    omega)
  behind i v hi hs p hp := by
    rcases List.mem_append.mp hp with hp | hp
    · exact h.behind i v hi hs p hp
    · have hlt : i < log.length := by
        by_contra hle
        rw [h.beyond i (Nat.not_lt.mp hle)] at hs
        cases hs
      exact hlt.trans_le (mem_numbered.mp hp).1

omit h in
/-- The first part of the queue is written. -/
theorem write {batch rest : List (Nat × V)} (h : Journal log base store (batch ++ rest)) :
    Journal log base (store.insertAll batch) rest where
  base_le := h.base_le
  sorted := (List.pairwise_append.mp (List.map_append ▸ h.sorted)).2.1
  queued p hp := h.queued p (List.mem_append_right _ hp)
  held i v hi hget := by
    have hsorted := List.pairwise_append.mp (List.map_append ▸ h.sorted)
    rcases h.held i v hi hget with hq | hs
    · rcases List.mem_append.mp hq with hbatch | hrest
      · exact Or.inr (OrdMap.get?_insertAll_of_mem (hsorted.1.imp ne_of_lt) hbatch store)
      · exact Or.inl hrest
    · refine Or.inr ((OrdMap.get?_insertAll_of_not_mem ?_ store).trans hs)
      intro hmem
      obtain ⟨p, hp, heq⟩ := List.mem_map.mp hmem
      exact absurd heq (h.behind i v hi hs p (List.mem_append_left _ hp)).ne'
  beyond i hi := by
    rw [OrdMap.get?_insertAll_of_not_mem, h.beyond i hi]
    intro hmem
    obtain ⟨p, hp, rfl⟩ := List.mem_map.mp hmem
    exact absurd (h.queued p (List.mem_append_left _ hp)).1 (Nat.not_lt.mpr hi)
  behind i v hi hs p hp := by
    have hsorted := List.pairwise_append.mp (List.map_append ▸ h.sorted)
    rcases (OrdMap.get?_insertAll_eq_some (hsorted.1.imp ne_of_lt)).mp hs with hbatch | ⟨-, hs⟩
    · exact hsorted.2.2 i (List.mem_map_of_mem hbatch) p.1 (List.mem_map_of_mem hp)
    · exact h.behind i v hi hs p (List.mem_append_right _ hp)

omit h in
theorem durable_write {batch rest : List (Nat × V)} (h : Journal log base store (batch ++ rest)) :
    durable log base (batch ++ rest) ≤ durable log base rest := by
  cases batch with
  | nil => exact le_rfl
  | cons p more =>
      refine max_le base_le_durable (le_max_of_le_right ?_)
      cases hrest : rest with
      | nil => exact (h.queued p List.mem_cons_self).1.le
      | cons q others =>
          have hsorted := (List.pairwise_cons.mp h.sorted).1 q.1 (by simp [hrest])
          exact hsorted.le

omit h in
theorem truncate (h : Journal log base store []) {n : Nat} (hn : base ≤ n) :
    Journal (log.take n) base (store.filter fun i _ => i < n) [] where
  base_le := by
    rw [List.length_take]
    exact le_min hn h.base_le
  sorted := List.Pairwise.nil
  queued p hp := absurd hp List.not_mem_nil
  held i v hi hget := by
    rw [List.getElem?_take] at hget
    split_ifs at hget with hlt
    refine Or.inr (OrdMap.get?_filter_eq_some.mpr ⟨?_, decide_eq_true hlt⟩)
    exact (h.held i v hi hget).resolve_left List.not_mem_nil
  beyond i hi := by
    rw [OrdMap.get?_filter]
    rw [List.length_take] at hi
    rcases min_le_iff.mp hi with hi | hi
    · cases store.get? i <;> simp [Option.filter, Nat.not_lt.mpr hi]
    · rw [h.beyond i hi]
      rfl
  behind i v _ _ p hp := absurd hp List.not_mem_nil

/-- The store forgets a part below the base. -/
theorem purge {k : Nat} (hk : k < base) :
    Journal log base (store.filter fun i _ => k < i) queue where
  base_le := h.base_le
  sorted := h.sorted
  queued := h.queued
  held i v hi hget := (h.held i v hi hget).imp_right fun hs =>
    OrdMap.get?_filter_eq_some.mpr ⟨hs, decide_eq_true (hk.trans_le hi)⟩
  beyond i hi := by
    rw [OrdMap.get?_filter, h.beyond i hi]
    rfl
  behind i v hi hs := h.behind i v hi (OrdMap.get?_filter_eq_some.mp hs).1

/-- A checkpoint covers more of the log. -/
theorem rebase {b : Nat} (hb : base ≤ b) (hlen : b ≤ log.length) :
    Journal log b store queue where
  base_le := hlen
  sorted := h.sorted
  queued p hp := ⟨(h.queued p hp).1, fun hle => (h.queued p hp).2 (hb.trans hle)⟩
  held i v hi := h.held i v (hb.trans hi)
  beyond := h.beyond
  behind i v hi := h.behind i v (hb.trans hi)

/-- A checkpoint covers all of a longer log, whatever that log is. -/
theorem replace {log' : List V} (hlen : log.length ≤ log'.length) :
    Journal log' log'.length store queue where
  base_le := le_rfl
  sorted := h.sorted
  queued p hp := ⟨(h.queued p hp).1.trans_le hlen,
    fun hle => absurd ((h.queued p hp).1.trans_le hlen) (Nat.not_lt.mpr hle)⟩
  held i v hi hget := by
    rw [List.getElem?_eq_none hi] at hget
    cases hget
  beyond i hi := h.beyond i (hlen.trans hi)
  behind i v hi hs := by
    rw [h.beyond i (hlen.trans hi)] at hs
    cases hs

/-- The queue is gone. -/
theorem crash : Journal (log.take (durable log base queue)) base store [] where
  base_le := by
    rw [List.length_take]
    exact le_min base_le_durable h.base_le
  sorted := List.Pairwise.nil
  queued p hp := absurd hp List.not_mem_nil
  held i v hi hget := Or.inr ((h.get?_store hi).trans hget)
  beyond i hi := by
    have hle : durable log base queue ≤ i := by
      rw [List.length_take, Nat.min_eq_left h.durable_le] at hi
      exact hi
    rw [h.get?_store (base_le_durable.trans hle), List.getElem?_take_eq_none hle]
  behind i v _ _ p hp := absurd hp List.not_mem_nil

/-! ## Reading -/

theorem first_le {first : Nat} (hfirst : store.firstKey? = some first) : first ≤ base := by
  obtain ⟨⟨v, hv⟩, hleast⟩ := OrdMap.firstKey?_eq_some.mp hfirst
  by_contra hlt
  have hbase := Nat.not_le.mp hlt
  rw [h.get?_store hbase.le] at hv
  obtain ⟨hlen, -⟩ := List.getElem?_eq_some_iff.mp hv
  have hget := h.get?_store (i := base) le_rfl
  rw [List.getElem?_eq_getElem (hbase.trans hlen)] at hget
  exact absurd (hleast _ _ hget) hlt

theorem le_last {i : Nat} (hi : base ≤ i) (hlt : i < durable log base queue) :
    ∃ last, store.lastKey? = some last ∧ i ≤ last := by
  have hget := h.get?_store hi
  rw [List.getElem?_take_of_lt hlt, List.getElem?_eq_getElem (hlt.trans_le h.durable_le)] at hget
  cases hlast : store.lastKey? with
  | none =>
      rw [OrdMap.lastKey?_eq_none.mp hlast i] at hget
      cases hget
  | some last => exact ⟨last, rfl, (OrdMap.lastKey?_eq_some.mp hlast).2 _ _ hget⟩

/-- A range of the store is that part of the log. -/
theorem values_range {start stop : Nat} (hstart : base ≤ start)
    (hstop : stop ≤ durable log base queue) :
    (store.range start stop).values = (log.take stop).drop start := by
  refine values_of_numbered start _ fun i v => ?_
  rw [OrdMap.get?_range, List.getElem?_drop]
  constructor
  · intro hget
    split_ifs at hget with hi
    rw [h.get?_store (hstart.trans hi.1), List.getElem?_take_of_lt (hi.2.trans_le hstop)] at hget
    rw [Nat.add_sub_cancel' hi.1, List.getElem?_take_of_lt hi.2]
    exact ⟨hi.1, hget⟩
  · rintro ⟨hle, hget⟩
    rw [Nat.add_sub_cancel' hle, List.getElem?_take] at hget
    split_ifs at hget with hlt
    rw [if_pos ⟨hle, hlt⟩, h.get?_store (hstart.trans hle),
      List.getElem?_take_of_lt (hlt.trans_le hstop), hget]

end Journal
