import HermesMq.LogInvariant

/-!
# Reads next to the flusher

A read takes the database half of the log first and the pending half
after it, and the flusher may work in between. An entry goes through
three phases: queued (only the pending map has it), written (both halves
have it), stored (only the database has it). The read misses an entry
when the entry leaves the first phase after the read looked at the
database and reaches the last one before it looks at the pending map, and
only then (`read_returns_iff`).
-/

namespace HermesMq

/-! ## What the flusher writes and removes -/

namespace LogSystem

/-- The indices a step writes to the database. -/
def writes (s : LogSystem) : LogEvent → List Nat
  | .flush true =>
      match s.store.flusher with
      | .ready batch => batch.entries.map Prod.fst
      | _ => []
  | _ => []

/-- The indices a step takes out of the pending map after their write. -/
def removes (s : LogSystem) : LogEvent → List Nat
  | .flush _ =>
      match s.store.flusher with
      | .written batch => batch.entries.map Prod.fst
      | _ => []
  | _ => []

section Along

variable (entryCodec : Codec Entry) (logIdCodec : Codec LogId)

/-- What the steps of a run write or remove, one after the other. -/
def collect (f : LogSystem → LogEvent → List Nat) (s : LogSystem) (evs : List LogEvent) :
    List Nat :=
  Machine.collect (step entryCodec logIdCodec) f s evs

/-- The log has the entry all along the run. -/
def Keeps (i : Nat) (e : Entry) (s : LogSystem) (evs : List LogEvent) : Prop :=
  Machine.Always (step entryCodec logIdCodec) (fun s => s.spec.entries.get? i = some e) s evs

end Along

end LogSystem

/-! ## Phases -/

namespace LogSystem

open WriteBehind (Phase)

/-- How far an entry of the log has come. -/
def phase (s : LogSystem) (i : Nat) : Phase :=
  WriteBehind.phase s.store.flusher.toRemove s.unwritten i

variable {entryCodec : Codec Entry} {logIdCodec : Codec LogId} {s s' : LogSystem} {i : Nat}

/-- The callers only add to the end of the queue. -/
theorem Move.unwritten {ev : LogEvent} (h : s.Move entryCodec logIdCodec ev s')
    (hev : ∀ ok, ev ≠ .flush ok) :
    s'.store.flusher = s.store.flusher ∧ (s'.unwritten = s.unwritten ∨
      ∃ es, s.spec.Appendable es ∧
        s'.unwritten = s.unwritten ++ LogStore.encodeEntries entryCodec es) := by
  cases h with
  | append hcall hes =>
      refine ⟨rfl, Or.inr ⟨_, hes, ?_⟩⟩
      simp [LogSystem.unwritten, hcall, LogStore.insertPending, LogCall.unsent]
  | send hcall =>
      refine ⟨rfl, Or.inl ?_⟩
      simp [LogSystem.unwritten, LogStore.send, LogCall.unsent, hcall, FlushJob.entries]
  | wait he hcall hbarrier hpurge =>
      refine ⟨rfl, Or.inl ?_⟩
      simp [LogSystem.unwritten, LogStore.send, LogCall.unsent_of_barrier hbarrier, hcall,
        FlushJob.entries]
  | answered hcall hn =>
      refine ⟨rfl, Or.inl ?_⟩
      simp [LogSystem.unwritten, LogCall.unsent, hcall]
  | truncated hcall hn =>
      refine ⟨rfl, Or.inl ?_⟩
      simp [LogSystem.unwritten, LogStore.truncate, LogCall.unsent, hcall]
  | purged hcall hn hstore =>
      obtain ⟨hjobs, hflusher, -⟩ := LogStore.purge_frame logIdCodec hstore
      refine ⟨hflusher, Or.inl ?_⟩
      simp [LogSystem.unwritten, hjobs, hflusher, LogCall.unsent, hcall]
  | flush => exact absurd rfl (hev _)

theorem writes_eq_nil {ev : LogEvent} (hev : ∀ ok, ev ≠ .flush ok) :
    s.writes ev = [] ∧ s.removes ev = [] := by
  cases ev with
  | flush ok => exact absurd rfl (hev ok)
  | append | send | truncate | purge | barrier | finish => exact ⟨rfl, rfl⟩

theorem Quiet.writes {store : LogStore} (h : s.Quiet store) : s.writes (.flush true) = [] := by
  cases hf : s.store.flusher with
  | ready batch => simp [LogSystem.writes, hf, h.ready batch hf]
  | idle | collecting | written => simp [LogSystem.writes, hf]

theorem Quiet.removes {store : LogStore} (h : s.Quiet store) : s.removes (.flush true) = [] := by
  cases hf : s.store.flusher with
  | written batch => exact absurd hf (h.written batch)
  | idle | collecting | ready => simp [LogSystem.removes, hf]

/-- What the flusher's steps do to the phase of an entry. -/
theorem phase_flush {store : LogStore} {lost : Finset Nat} (h : LogOk entryCodec logIdCodec s)
    (hmove : LogStore.FlushMove true s.store store)
    (hs' : s' = { s with store := store, lost := lost }) :
    (s'.phase i = s.phase i ∧ i ∉ s.writes (.flush true) ∧ i ∉ s.removes (.flush true)) ∨
    (s.phase i = .queued ∧ s'.phase i = .written ∧
      i ∈ s.writes (.flush true) ∧ i ∉ s.removes (.flush true)) ∨
    (s.phase i = .written ∧ s'.phase i = .stored ∧
      i ∉ s.writes (.flush true) ∧ i ∈ s.removes (.flush true)) := by
  subst hs'
  have hstored := h.log.stored
  rcases flush_cases hmove with hq | ⟨batch, hf, -, rfl⟩ | ⟨batch, -, hok, -⟩ | ⟨batch, hf, rfl⟩
  · refine Or.inl ⟨?_, by simp [hq.writes], by simp [hq.removes]⟩
    rw [phase, phase, hq.toRemove, ← hq.unwritten]
    rfl
  · rw [hf, unwritten, hf, List.append_assoc] at hstored
    have hbefore : s.phase i = WriteBehind.phase [] (batch.entries ++
        (s.store.jobs.flatMap FlushJob.entries ++ s.call.unsent)) i := by
      rw [phase, unwritten, hf, List.append_assoc]
      rfl
    have hphase := hstored.phase_write i
    simp only [writes, removes, hf]
    rw [hbefore]
    split_ifs at hphase with hi
    · exact Or.inr (Or.inl ⟨hphase.1, hphase.2, hi, List.not_mem_nil⟩)
    · exact Or.inl ⟨hphase, hi, List.not_mem_nil⟩
  · cases hok
  · rw [hf, unwritten, hf] at hstored
    have hbefore : s.phase i = WriteBehind.phase batch.entries
        (s.store.jobs.flatMap FlushJob.entries ++ s.call.unsent) i := by
      rw [phase, unwritten, hf]
      rfl
    have hphase := hstored.phase_remove i
    simp only [writes, removes, hf]
    rw [hbefore]
    split_ifs at hphase with hi
    · exact Or.inr (Or.inr ⟨hphase.1, hphase.2, List.not_mem_nil, hi⟩)
    · exact Or.inl ⟨hphase, List.not_mem_nil, hi⟩

/-- A step leaves an entry in its phase, or writes it, or removes it. -/
theorem phase_move {ev : LogEvent} (h : LogOk entryCodec logIdCodec s)
    (hmove : s.Move entryCodec logIdCodec ev s') (hok : ev ≠ .flush false)
    (hi : i ∈ s.spec.entries.keys) :
    (s'.phase i = s.phase i ∧ i ∉ s.writes ev ∧ i ∉ s.removes ev) ∨
    (s.phase i = .queued ∧ s'.phase i = .written ∧ i ∈ s.writes ev ∧ i ∉ s.removes ev) ∨
    (s.phase i = .written ∧ s'.phase i = .stored ∧ i ∉ s.writes ev ∧ i ∈ s.removes ev) := by
  by_cases hev : ∀ ok, ev ≠ .flush ok
  · obtain ⟨hw, hr⟩ := s.writes_eq_nil hev
    obtain ⟨hflusher, hwrite⟩ := hmove.unwritten hev
    refine Or.inl ⟨?_, by simp [hw], by simp [hr]⟩
    rw [phase, phase, hflusher]
    rcases hwrite with hwrite | ⟨es, hes, hwrite⟩
    · rw [hwrite]
    · rw [hwrite, WriteBehind.phase_append]
      intro hnew
      rw [LogStore.encodeEntries, List.map_map] at hnew
      obtain ⟨e, he, rfl⟩ := List.mem_map.mp hnew
      exact lt_irrefl _ ((hes.2 e he).1 _ hi)
  · cases hmove with
    | @flush ok store hmove =>
        cases ok with
        | false => exact absurd rfl hok
        | true => exact phase_flush h hmove rfl
    | append | send | answered | truncated | purged =>
        exact absurd (fun _ => LogEvent.noConfusion) hev
    | wait he => exact absurd he hev

/-- Over a run an entry only moves on. It is written when it leaves the
first phase and removed when it enters the last. -/
theorem phase_run {evs : List LogEvent} {e : Entry} (h : LogOk entryCodec logIdCodec s)
    (hrun : s.run entryCodec logIdCodec evs = some s') (hok : ∀ ev ∈ evs, ev ≠ .flush false)
    (hkeeps : s.Keeps entryCodec logIdCodec i e evs) :
    (s.phase i).rank ≤ (s'.phase i).rank ∧
    (i ∈ s.collect entryCodec logIdCodec writes evs ↔
      s.phase i = .queued ∧ s'.phase i ≠ .queued) ∧
    (i ∈ s.collect entryCodec logIdCodec removes evs ↔
      s.phase i ≠ .stored ∧ s'.phase i = .stored) := by
  induction evs generalizing s with
  | nil =>
      obtain rfl := Option.some.inj hrun
      simp [collect, Machine.collect]
  | cons ev rest ih =>
      obtain ⟨s₁, hstep, hrest⟩ := Machine.run_cons_eq_some.mp hrun
      have hmove := step_move hstep
      have hi : i ∈ s.spec.entries.keys := OrdMap.mem_keys.mpr ⟨e, hkeeps.first⟩
      obtain ⟨hrank, hw, hr⟩ := ih (h.step hmove) hrest
        (fun ev' hev => hok ev' (List.mem_cons_of_mem _ hev)) (hkeeps.tail hstep)
      rw [collect] at hw hr
      simp only [collect, Machine.collect, hstep, List.mem_append, hw, hr]
      rcases phase_move h hmove (hok ev List.mem_cons_self) hi with
        ⟨hsame, hnw, hnr⟩ | ⟨hq, hq₁, hiw, hnr⟩ | ⟨hq, hq₁, hnw, hir⟩
      · rw [hsame] at hrank ⊢
        simp [hnw, hnr, hrank]
      · rw [hq₁] at hrank ⊢
        rw [hq]
        cases hp : s'.phase i <;> simp_all [Phase.rank]
      · rw [hq₁] at hrank ⊢
        rw [hq]
        cases hp : s'.phase i <;> simp_all [Phase.rank]

end LogSystem

/-! ## Reads -/

section Read

variable {entryCodec : Codec Entry} {logIdCodec : Codec LogId} {s₁ s₂ : LogSystem}
  {start stop i : Nat} {e : Entry}

/-- A read returns the entry exactly when one of the halves had it. -/
theorem mem_readRange (h₁ : LogOk entryCodec logIdCodec s₁)
    (h₂ : LogWhole entryCodec logIdCodec s₂) (hrange : start ≤ i ∧ i < stop)
    (he : e.logId.index = i) :
    ∃ out, LogStore.readRange entryCodec s₁.store s₂.store start stop = .ok out ∧
      (e ∈ out ↔ (s₂.store.pending.get? i).or (s₁.store.db.log.get? i) =
        some (entryCodec.enc e)) := by
  have hmerged := LogStore.merged_get? s₁.store s₂.store start stop
  have hencoded : ∀ {j b}, (s₂.store.readPending start stop
      (s₁.store.readDb start stop)).get? j = some b →
      ∃ e, entryCodec.enc e = b ∧ e.logId.index = j := fun {j b} hj => by
    rw [hmerged] at hj
    obtain ⟨-, hj⟩ := Option.ite_none_right_eq_some.mp hj
    rcases Option.or_eq_some_iff.mp hj with hj | ⟨-, hj⟩
    · have hlog := h₂.placed.buffer_sub hj
      rw [LogSystem.bytes_get?] at hlog
      obtain ⟨e, he, hb⟩ := Option.map_eq_some_iff.mp hlog
      exact ⟨e, hb, h₂.log.keyed j e he⟩
    · have hlog := h₁.log.stored.store_sub hj
      rw [LogSystem.bytes_get?] at hlog
      obtain ⟨e, he, hb⟩ := Option.map_eq_some_iff.mp hlog
      exact ⟨e, hb, h₁.log.keyed j e he⟩
  obtain ⟨out, hout, hmem⟩ := LogStore.decodeEntries_encoded entryCodec
    fun j b hj => (hencoded hj).imp fun _ => And.left
  refine ⟨out, ?_, ?_⟩
  · rw [LogStore.readRange, if_neg (by omega), hout]
  · rw [hmem]
    constructor
    · rintro ⟨j, hj⟩
      obtain ⟨e', henc, hindex⟩ := hencoded hj
      obtain rfl := entryCodec.enc_inj henc
      obtain rfl : i = j := he.symm.trans hindex
      rwa [hmerged, if_pos hrange] at hj
    · intro hi
      exact ⟨i, by rw [hmerged, if_pos hrange, hi]⟩

/-- A read whose halves are taken in `s₁` and `s₂` returns an entry the
log has all along, unless its batch is both written and removed between
the two halves. -/
theorem read_returns_iff {pre mid : List LogEvent}
    (hpre : LogSystem.run entryCodec logIdCodec {} pre = some s₁)
    (hmid : s₁.run entryCodec logIdCodec mid = some s₂)
    (hok : ∀ ev ∈ pre ++ mid, ev ≠ .flush false) (hrange : start ≤ i ∧ i < stop)
    (hkeeps : s₁.Keeps entryCodec logIdCodec i e mid) :
    ∃ out, LogStore.readRange entryCodec s₁.store s₂.store start stop = .ok out ∧
      (e ∈ out ↔ ¬ (i ∈ s₁.collect entryCodec logIdCodec LogSystem.writes mid ∧
        i ∈ s₁.collect entryCodec logIdCodec LogSystem.removes mid)) := by
  have h₁ : LogWhole entryCodec logIdCodec s₁ :=
    .of_run hpre fun ev hev => hok ev (List.mem_append_left _ hev)
  have h₂ := h₁.run hmid fun ev hev => hok ev (List.mem_append_right _ hev)
  have he₁ := hkeeps.first
  obtain ⟨out, hout, hmem⟩ := mem_readRange h₁.toLogOk h₂ hrange (h₁.log.keyed i e he₁)
  obtain ⟨-, hw, hr⟩ := LogSystem.phase_run h₁.toLogOk hmid
    (fun ev hev => hok ev (List.mem_append_right _ hev)) hkeeps
  refine ⟨out, hout, ?_⟩
  rw [hmem, hw, hr, h₂.placed.buffer_phase, h₁.placed.store_phase, LogSystem.bytes_get?,
    LogSystem.bytes_get?, he₁, hkeeps.last hmid, Option.map_some]
  change (if s₂.phase i = .stored then none else _).or
    (if s₁.phase i = .queued then none else _) = _ ↔ _
  by_cases hq : s₁.phase i = .queued <;> by_cases hs : s₂.phase i = .stored <;> simp [hq, hs]

end Read

/-- The flusher is about to write the first entry. -/
def aboutToWrite : LogSystem where
  store :=
    { pending := .ofList [(1, [])]
      flusher := .ready { entries := [(1, [])], callbacks := [0] } }
  nextId := 1
  spec := { entries := .ofList [(1, blankAt 1)] }
  writer := .ofList [(1, 0)]

theorem run_aboutToWrite (logIdCodec : Codec LogId) :
    LogSystem.run blankCodec logIdCodec {}
      [.append [blankAt 1], .send, .flush true, .flush true] = some aboutToWrite := rfl

/-- A write without the removal does not hide the entry. -/
theorem read_returns_written_entry :
    ∃ s₂ out, aboutToWrite.run blankCodec (.ofCountable LogId) [.flush true] = some s₂ ∧
      LogStore.readRange blankCodec aboutToWrite.store s₂.store 1 2 = .ok out ∧
      blankAt 1 ∈ out := by
  let s₂ : LogSystem := { aboutToWrite with
    store := { aboutToWrite.store with
      db := { log := .ofList [(1, [])] }
      flusher := .written { entries := [(1, [])], callbacks := [0] } } }
  have hrun : aboutToWrite.run blankCodec (.ofCountable LogId) [.flush true] = some s₂ := rfl
  have hrange : 1 ≤ 1 ∧ 1 < 2 := by decide
  have hkeeps : aboutToWrite.Keeps blankCodec (.ofCountable LogId) 1 (blankAt 1) [.flush true] :=
    ⟨rfl, rfl⟩
  obtain ⟨out, hout, hiff⟩ :=
    read_returns_iff (run_aboutToWrite _) hrun (by decide) hrange hkeeps
  exact ⟨s₂, out, hrun, hout, hiff.mpr (by decide)⟩

/-- A batch that is written and removed between the halves of a read is
missed by it. -/
theorem read_misses_flushed_entry :
    ∃ (entryCodec : Codec Entry) (logIdCodec : Codec LogId) (pre mid : List LogEvent)
      (s₁ s₂ : LogSystem), LogSystem.run entryCodec logIdCodec {} pre = some s₁ ∧
      s₁.call = .none ∧ s₁.run entryCodec logIdCodec mid = some s₂ ∧
      (∀ ev ∈ pre ++ mid, ev ≠ .flush false) ∧
      s₁.Keeps entryCodec logIdCodec 1 (blankAt 1) mid ∧
      LogStore.readRange entryCodec s₁.store s₂.store 1 2 = .ok [] :=
  ⟨blankCodec, .ofCountable LogId, [.append [blankAt 1], .send, .flush true, .flush true],
    [.flush true, .flush true], aboutToWrite,
    { aboutToWrite with
      store := { db := { log := .ofList [(1, [])] }, completed := [(0, true)] } },
    rfl, rfl, rfl, by decide, ⟨rfl, rfl, rfl⟩, rfl⟩

end HermesMq
