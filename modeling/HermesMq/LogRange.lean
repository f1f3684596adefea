import HermesMq.LogInvariant

/-!
# Reading a range of the log

`try_get_log_entries` turns the two bounds of a range into a first index
and an index past the end. On a log with any contents the read returns what
the two halves have in the range, as long as the first index is not above
the end (`tryGetLogEntries_eq`). The end of an unbounded range comes from
the last entry, the start from the caller, so nothing keeps them in order:
`log_range_iff` says for which ranges they are.
-/

namespace HermesMq

namespace LogStore

namespace Bound

/-- Whether an index is on the right side of a lower bound. -/
def atLeast : Bound → Nat → Bool
  | .included index, i => index ≤ i
  | .excluded index, i => index < i
  | .unbounded, _ => true

/-- Whether an index is on the right side of an upper bound. -/
def atMost : Bound → Nat → Bool
  | .included index, i => i ≤ index
  | .excluded index, i => i < index
  | .unbounded, _ => true

/-- The index the caller gave. -/
def endpoint? : Bound → Option Nat
  | .included index => some index
  | .excluded index => some index
  | .unbounded => none

theorem startOf_le {b : Bound} (h : ∀ i, b.endpoint? = some i → i < u64Max) (i : Nat) :
    startOf b ≤ i ↔ b.atLeast i := by
  cases b with
  | included => exact (decide_eq_true_iff).symm
  | excluded index =>
      rw [startOf, wrapSucc_of_lt (h index rfl)]
      exact (decide_eq_true_iff).symm
  | unbounded => exact iff_of_true (Nat.zero_le i) rfl

end Bound

/-! ## The two halves together -/

/-- What the store has at each index: the bytes that wait, or else those in
the database. -/
def contents (s : LogStore) : OrdMap Nat Bytes := s.db.log.insertAll s.pending.entries

/-- What the store has between the bounds. -/
def within (s : LogStore) (first last : Bound) : OrdMap Nat Bytes :=
  s.contents.filter fun i _ => first.atLeast i && last.atMost i

variable {s : LogStore}

theorem contents_get? (s : LogStore) (i : Nat) :
    s.contents.get? i = (s.pending.get? i).or (s.db.log.get? i) :=
  OrdMap.get?_insertAll_entries ..

/-- The greatest index of the two halves is the greatest of the log. -/
theorem lastIndex_eq (s : LogStore) : s.lastIndex = s.contents.lastKey? :=
  OrdMap.max?_lastKeys s.contents_get?

/-- No sum of a read wraps: the log and the range end below `u64::MAX`. -/
structure Room (s : LogStore) (first last : Bound) : Prop where
  log : ∀ i ∈ s.contents.keys, i < u64Max
  first : ∀ i, first.endpoint? = some i → i < u64Max
  last : ∀ i, last.endpoint? = some i → i < u64Max

variable {first last : Bound}

theorem lt_endOf (h : s.Room first last) {i : Nat} {b : Bytes} (hi : s.contents.get? i = some b) :
    i < s.endOf last ↔ last.atMost i := by
  cases last with
  | included index =>
      rw [endOf, wrapSucc_of_lt (h.last index rfl)]
      exact Nat.lt_succ_iff.trans decide_eq_true_iff.symm
  | excluded index => exact decide_eq_true_iff.symm
  | unbounded =>
      refine iff_of_true ?_ rfl
      rw [endOf, lastIndex_eq]
      cases hk : s.contents.lastKey? with
      | none => simp [OrdMap.lastKey?_eq_none.mp hk i] at hi
      | some k =>
          obtain ⟨hmem, hmax⟩ := OrdMap.lastKey?_eq_some.mp hk
          rw [Option.map_some, wrapSucc_of_lt (h.log k (OrdMap.mem_keys.mpr hmem))]
          exact Nat.lt_succ_of_le (hmax i b hi)

/-- A read decodes what the store has in the range. -/
theorem tryGetLogEntries_eq (entryCodec : Codec Entry) (h : s.Room first last)
    (hrange : startOf first ≤ s.endOf last) :
    s.tryGetLogEntries entryCodec first last = decodeEntries entryCodec (s.within first last) := by
  have hmerged : s.readPending (startOf first) (s.endOf last)
      (s.readDb (startOf first) (s.endOf last)) = s.within first last := by
    refine OrdMap.ext_get? fun i => ?_
    rw [merged_get?, ← contents_get?, within, OrdMap.get?_filter]
    cases hi : s.contents.get? i with
    | none => simp
    | some b =>
        simp only [Bound.startOf_le h.first, lt_endOf h hi, Option.filter, Bool.and_eq_true]
  rw [tryGetLogEntries, readRange, if_neg (Nat.not_lt.mpr hrange), hmerged]

/-- A log of entries is read back as entries. -/
theorem decodeEntries_within {entryCodec : Codec Entry} {log : OrdMap Nat Entry}
    (h : s.contents = log.mapVals fun _ e => entryCodec.enc e) (first last : Bound) :
    decodeEntries entryCodec (s.within first last) =
      .ok (log.filter fun i _ => first.atLeast i && last.atMost i).values := by
  rw [decodeEntries, within, h, ← OrdMap.mapVals_filter, OrdMap.values_mapVals,
    entryCodec.mapM_dec]

/-! ## Which ranges may be asked for -/

/-- The range does not end before it starts. Without an upper bound, it may
start one past the last entry, and only at zero if there is none. -/
def Askable (s : LogStore) (first : Bound) : Bound → Prop
  | .included index => startOf first ≤ index + 1
  | .excluded index => startOf first ≤ index
  | .unbounded => startOf first = 0 ∨ ∃ i ∈ s.contents.keys, startOf first ≤ i + 1

theorem startOf_le_endOf (h : s.Room first last) :
    startOf first ≤ s.endOf last ↔ s.Askable first last := by
  cases last with
  | included index =>
      rw [endOf, wrapSucc_of_lt (h.last index rfl)]
      exact Iff.rfl
  | excluded => exact Iff.rfl
  | unbounded =>
      rw [endOf, lastIndex_eq]
      cases hk : s.contents.lastKey? with
      | none =>
          have hnone : ∀ i, i ∉ s.contents.keys := by
            intro i hi
            obtain ⟨b, hb⟩ := OrdMap.mem_keys.mp hi
            rw [OrdMap.lastKey?_eq_none.mp hk i] at hb
            cases hb
          simp [Askable, hnone]
      | some k =>
          obtain ⟨hmem, hmax⟩ := OrdMap.lastKey?_eq_some.mp hk
          rw [Option.map_some, wrapSucc_of_lt (h.log k (OrdMap.mem_keys.mpr hmem))]
          constructor
          · intro hle
            exact Or.inr ⟨k, OrdMap.mem_keys.mpr hmem, hle⟩
          · rintro (hzero | ⟨i, hi, hle⟩)
            · rw [hzero]
              exact Nat.zero_le _
            · obtain ⟨b, hb⟩ := OrdMap.mem_keys.mp hi
              exact hle.trans (Nat.succ_le_succ (hmax i b hb))

theorem startOf_le_bound {n : Nat} (h : ∀ i, first.endpoint? = some i → i < n) :
    startOf first ≤ n := by
  cases first with
  | included index => exact (h index rfl).le
  | excluded index => exact (wrapSucc_le index).trans (h index rfl)
  | unbounded => exact Nat.zero_le n

theorem endOf_le_bound {n : Nat} (hs : ∀ i ∈ s.contents.keys, i < n)
    (h : ∀ i, last.endpoint? = some i → i < n) : s.endOf last ≤ n := by
  cases last with
  | included index => exact (wrapSucc_le index).trans (h index rfl)
  | excluded index => exact (h index rfl).le
  | unbounded =>
      rw [endOf, lastIndex_eq]
      cases hk : s.contents.lastKey? with
      | none => exact Nat.zero_le n
      | some k =>
          have hlt := hs k (OrdMap.mem_keys.mpr (OrdMap.lastKey?_eq_some.mp hk).1)
          exact (wrapSucc_le k).trans hlt

end LogStore

open LogStore (Bound startOf)

/-- Below `2 ^ 63` the bounds are computed without overflow, whatever the
store holds, and cut the range out of the log. They are in order exactly for
the askable ranges: then a read returns the entries of the range, in index
order; for any other range the lookup in the pending map, if that has
entries, panics with its lock held. -/
theorem log_range_iff (entryCodec : Codec Entry) (s : LogStore) (first last : Bound)
    (hs : ∀ i ∈ s.contents.keys, i < 2 ^ 63)
    (hfirst : ∀ i, first.endpoint? = some i → i < 2 ^ 63)
    (hlast : ∀ i, last.endpoint? = some i → i < 2 ^ 63) :
    startOf first < 2 ^ 64 ∧ s.endOf last < 2 ^ 64 ∧
    (∀ i ∈ s.contents.keys,
      (startOf first ≤ i ↔ first.atLeast i) ∧ (i < s.endOf last ↔ last.atMost i)) ∧
    (startOf first ≤ s.endOf last ↔ s.Askable first last) ∧
    (s.Askable first last →
      s.tryGetLogEntries entryCodec first last =
        LogStore.decodeEntries entryCodec (s.within first last) ∧
      ∀ log : OrdMap Nat Entry, s.contents = (log.mapVals fun _ e => entryCodec.enc e) →
        s.tryGetLogEntries entryCodec first last =
          .ok (log.filter fun i _ => first.atLeast i && last.atMost i).values) ∧
    (¬s.Askable first last → s.pending ≠ ∅ →
      s.tryGetLogEntries entryCodec first last =
        .error "range start is greater than range end in BTreeMap") := by
  have hstart := LogStore.startOf_le_bound hfirst
  have hend := LogStore.endOf_le_bound hs hlast
  have hroom : s.Room first last :=
    ⟨fun i hi => (hs i hi).trans (by decide), fun i hi => (hfirst i hi).trans (by decide),
      fun i hi => (hlast i hi).trans (by decide)⟩
  have hiff := LogStore.startOf_le_endOf hroom
  refine ⟨by omega, by omega, fun i hi => ?_, hiff, fun hask => ?_, fun hask _ => ?_⟩
  · obtain ⟨b, hb⟩ := OrdMap.mem_keys.mp hi
    exact ⟨LogStore.Bound.startOf_le hroom.first i, LogStore.lt_endOf hroom hb⟩
  · have hread := LogStore.tryGetLogEntries_eq entryCodec hroom (hiff.mpr hask)
    refine ⟨hread, fun log hlog => ?_⟩
    rw [hread, LogStore.decodeEntries_within hlog]
  · rw [LogStore.tryGetLogEntries, LogStore.readRange,
      if_pos (Nat.not_le.mp fun hle => hask (hiff.mp hle))]

/-- A stored entry and a pending one, read from past the first. -/
theorem log_range_iff_after_first :
    let s : LogStore := { db := { log := .ofList [(1, [])] }, pending := .ofList [(2, [0])] }
    s.Askable (.excluded 1) .unbounded ∧
      s.tryGetLogEntries blankCodec (.excluded 1) .unbounded = .ok [blankAt 2] := by
  intro s
  have hask : s.Askable (.excluded 1) .unbounded := Or.inr ⟨2, by decide, by decide⟩
  obtain ⟨-, -, -, -, hread, -⟩ := log_range_iff blankCodec s (.excluded 1) .unbounded (by decide)
    (by rintro i ⟨⟩; decide) (by rintro i ⟨⟩)
  exact ⟨hask, (hread hask).2 (.ofList [(1, blankAt 1), (2, blankAt 2)]) rfl⟩

/-- With one entry in the log, a read of everything from the third on finds
its end before its start. -/
theorem open_range_past_last :
    ∃ (entryCodec : Codec Entry) (logIdCodec : Codec LogId) (evs : List LogEvent) (s : LogSystem),
      LogSystem.run entryCodec logIdCodec {} evs = some s ∧
      s.store.pending.keys = [1] ∧ s.store.db.log = ∅ ∧
      startOf (.included 3) = 3 ∧ s.store.endOf .unbounded = 2 ∧
      s.store.within (.included 3) .unbounded = ∅ ∧
      s.store.tryGetLogEntries entryCodec (.included 3) .unbounded =
        .error "range start is greater than range end in BTreeMap" :=
  ⟨blankCodec, .ofCountable LogId, [.append [blankAt 1], .send],
    { store := { pending := .ofList [(1, [])], jobs := [.append [(1, [])] (some 0)] }
      nextId := 1
      spec := { entries := .ofList [(1, blankAt 1)] }
      writer := .ofList [(1, 0)] },
    rfl, rfl, rfl, rfl, rfl, rfl, rfl⟩

end HermesMq
