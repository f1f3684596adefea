import HermesMq.Types

/-!
# Lease bookkeeping of a subscription

A push subscription remembers, per offset, the leases under which it was
handed that offset. A redelivery of an offset the client still works on
refreshes the lease instead of pushing the message again, and an ack by
the client resolves to the latest lease of the offset, whichever of its
leases the client names. An acked offset is remembered for a grace time,
so that a redelivery that crosses the ack is acked on the client's
behalf.

`Consistent` is the consistency check the source runs over the three
maps; `Sourced` records where their entries come from. Both are kept by
every operation.
-/

namespace HermesMq

def subscribeMaxLeaseRefreshes : Nat := 2

def subscribeMaxLeaseAliases : Nat := 8

def ackGraceMs : Nat := 5000

structure OffsetTrack where
  leaseId : LeaseId
  deadlineMs : Nat
  refreshes : Nat
  leases : List LeaseId
deriving DecidableEq

inductive Delivery where
  | push
  | refreshed
  | alreadyAcked
deriving DecidableEq, Repr

structure SubTracking where
  byOffset : OrdMap Offset OffsetTrack := ∅
  leaseToOffset : OrdMap LeaseId Offset := ∅
  ackedRecently : OrdMap Offset Nat := ∅
deriving DecidableEq

/-! ## Operations -/

namespace OffsetTrack

/-- The lease is refreshed, not pushed again. -/
def refreshable (track : OffsetTrack) : Bool := track.refreshes < subscribeMaxLeaseRefreshes

/-- Whether one more alias is one too many: the oldest one goes. -/
def overflows (track : OffsetTrack) : Bool :=
  track.leases.length + 1 > subscribeMaxLeaseAliases

/-- The track after one more lease on its offset. -/
def extend (track : OffsetTrack) (leaseId : LeaseId) (deadlineMs : Nat) : OffsetTrack :=
  { leaseId := leaseId
    deadlineMs := deadlineMs
    refreshes := if track.refreshable then track.refreshes + 1 else 0
    leases :=
      if track.overflows then (track.leases ++ [leaseId]).tail else track.leases ++ [leaseId] }

/-- The alias that goes when the track is extended. -/
def dropped (track : OffsetTrack) (leaseId : LeaseId) : List LeaseId :=
  if track.overflows then (track.leases ++ [leaseId]).take 1 else []

end OffsetTrack

namespace SubTracking

/-- The part of `deliver` after the check for a recent ack. -/
def trackLease (s : SubTracking) (offset : Offset) (leaseId : LeaseId) (deadlineMs : Nat) :
    SubTracking × Delivery :=
  match s.byOffset.get? offset with
  | some track =>
      let map := s.leaseToOffset.eraseAll (track.dropped leaseId)
      ({ s with byOffset := s.byOffset.insert offset (track.extend leaseId deadlineMs)
                leaseToOffset := map.insert leaseId offset },
        if track.refreshable then .refreshed else .push)
  | none =>
      ({ s with byOffset := s.byOffset.insert offset ⟨leaseId, deadlineMs, 0, [leaseId]⟩
                leaseToOffset := s.leaseToOffset.insert leaseId offset },
        .push)

def deliver (s : SubTracking) (offset : Offset) (leaseId : LeaseId) (deadlineMs nowMs : Nat) :
    SubTracking × Delivery :=
  match s.ackedRecently.get? offset with
  | some until_ =>
      if until_ > nowMs then (s, .alreadyAcked)
      else trackLease { s with ackedRecently := s.ackedRecently.erase offset }
        offset leaseId deadlineMs
  | none => trackLease s offset leaseId deadlineMs

/-- The lease an ack or nack of `leaseId` stands for, if it is tracked; the
offset is then let go, and remembered as acked when `ackedUntil` is given. -/
def resolve (s : SubTracking) (leaseId : LeaseId) (ackedUntil : Option Nat) :
    SubTracking × Option LeaseId :=
  match s.leaseToOffset.get? leaseId with
  | none => (s, none)
  | some offset =>
      match s.byOffset.get? offset with
      | none => (s, none)
      | some track =>
          ({ byOffset := s.byOffset.erase offset
             leaseToOffset := s.leaseToOffset.eraseAll track.leases
             ackedRecently := ackedUntil.elim s.ackedRecently (s.ackedRecently.insert offset) },
            some track.leaseId)

def drainLeases (s : SubTracking) : SubTracking × List LeaseId :=
  ({}, s.byOffset.values.map (·.leaseId))

/-- The track outlived its deadline by the grace time. -/
def stale (nowMs graceMs : Nat) (track : OffsetTrack) : Bool :=
  satAdd track.deadlineMs graceMs ≤ nowMs

/-- Drop what is out of date and count the offsets the client still works
on. -/
def liveCount (s : SubTracking) (nowMs graceMs : Nat) : SubTracking × Nat :=
  let kept := s.byOffset.filter fun _ track => !stale nowMs graceMs track
  let gone := s.byOffset.filter fun _ track => stale nowMs graceMs track
  ({ byOffset := kept
     leaseToOffset := gone.values.foldl (fun map track => map.eraseAll track.leases)
       s.leaseToOffset
     ackedRecently := s.ackedRecently.filter fun _ until_ => until_ > nowMs },
    kept.values.countP fun track => track.deadlineMs > nowMs)

end SubTracking

/-! ## The consistency check -/

/-- What `debug_check_invariants` checks; it would let one alias more
pass. -/
structure SubTracking.Consistent (s : SubTracking) : Prop where
  listed : ∀ {l o}, s.leaseToOffset.get? l = some o →
    ∃ track, s.byOffset.get? o = some track ∧ l ∈ track.leases
  aliases : ∀ {o track}, s.byOffset.get? o = some track →
    track.leases.length ≤ subscribeMaxLeaseAliases
  current : ∀ {o track}, s.byOffset.get? o = some track → track.leaseId ∈ track.leases

theorem OffsetTrack.mem_extend {track : OffsetTrack} {l l' : LeaseId} {d : Nat}
    (h : l' ∈ track.leases) (hd : l' ∉ track.dropped l) : l' ∈ (track.extend l d).leases := by
  simp only [extend, dropped] at hd ⊢
  split_ifs at hd ⊢
  · cases hleases : track.leases with
    | nil => rw [hleases] at h; cases h
    | cons x rest =>
        rw [hleases] at h hd
        simp only [List.cons_append, List.tail_cons, List.take_succ_cons, List.take_zero,
          List.mem_singleton] at hd ⊢
        exact List.mem_append_left _ ((List.mem_cons.mp h).resolve_left hd)
  · exact List.mem_append_left _ h

theorem OffsetTrack.extend_length {track : OffsetTrack} {l : LeaseId} {d : Nat}
    (h : track.leases.length ≤ subscribeMaxLeaseAliases) :
    (track.extend l d).leases.length ≤ subscribeMaxLeaseAliases := by
  simp only [extend]
  split_ifs with hover
  · rw [List.length_tail, List.length_append]
    exact h
  · simp only [overflows, decide_eq_true_eq, not_lt] at hover
    rwa [List.length_append]

theorem OffsetTrack.self_mem_extend {track : OffsetTrack} {l : LeaseId} {d : Nat} :
    l ∈ (track.extend l d).leases := by
  simp only [extend]
  split_ifs with hover
  · cases hleases : track.leases with
    | nil => simp [overflows, hleases, subscribeMaxLeaseAliases] at hover
    | cons x rest => simp
  · simp

theorem OffsetTrack.extend_sub {track : OffsetTrack} {l l' : LeaseId} {d : Nat}
    (h : l' ∈ (track.extend l d).leases) : l' = l ∨ l' ∈ track.leases := by
  simp only [extend] at h
  split_ifs at h
  · have := List.mem_of_mem_tail h
    rw [List.mem_append, List.mem_singleton] at this
    exact this.symm
  · rw [List.mem_append, List.mem_singleton] at h
    exact h.symm

namespace SubTracking

variable {s : SubTracking}

theorem Consistent.empty : Consistent {} where
  listed h := by cases h
  aliases h := by cases h
  current h := by cases h

/-- A new track for offset `o`. -/
theorem Consistent.put (h : s.Consistent) {o : Offset} {track : OffsetTrack}
    {map : OrdMap LeaseId Offset} (haliases : track.leases.length ≤ subscribeMaxLeaseAliases)
    (hcurrent : track.leaseId ∈ track.leases)
    (hmap : ∀ {l o'}, map.get? l = some o' → (o' = o ∧ l ∈ track.leases) ∨
      (o' ≠ o ∧ s.leaseToOffset.get? l = some o')) :
    Consistent { s with byOffset := s.byOffset.insert o track, leaseToOffset := map } := by
  refine ⟨fun {l o'} hl => ?_, fun {o' t} ht => ?_, fun {o' t} ht => ?_⟩
  · rcases hmap hl with ⟨rfl, hmem⟩ | ⟨hne, hl⟩
    · exact ⟨track, OrdMap.get?_insert_self .., hmem⟩
    · obtain ⟨t, ht, hmem⟩ := h.listed hl
      exact ⟨t, (OrdMap.get?_insert_ne _ _ hne).trans ht, hmem⟩
  · rw [OrdMap.get?_insert] at ht
    split_ifs at ht
    · cases ht
      exact haliases
    · exact h.aliases ht
  · rw [OrdMap.get?_insert] at ht
    split_ifs at ht
    · cases ht
      exact hcurrent
    · exact h.current ht

theorem Consistent.trackLease (h : s.Consistent) (o : Offset) (l : LeaseId) (d : Nat) :
    (s.trackLease o l d).1.Consistent := by
  unfold SubTracking.trackLease
  cases ho : s.byOffset.get? o with
  | none =>
      refine h.put (Nat.le_of_ble_eq_true rfl) (List.mem_singleton.mpr rfl) fun {l' o'} hl => ?_
      rw [OrdMap.get?_insert] at hl
      split_ifs at hl with hl'
      · exact Or.inl ⟨(Option.some.inj hl).symm, List.mem_singleton.mpr hl'⟩
      · obtain ⟨track, ht, -⟩ := h.listed hl
        refine Or.inr ⟨?_, hl⟩
        rintro rfl
        rw [ho] at ht
        cases ht
  | some old =>
      refine h.put (OffsetTrack.extend_length (h.aliases ho)) OffsetTrack.self_mem_extend
        fun {l' o'} hl => ?_
      rw [OrdMap.get?_insert] at hl
      split_ifs at hl with hl'
      · exact Or.inl ⟨(Option.some.inj hl).symm, hl' ▸ OffsetTrack.self_mem_extend⟩
      · obtain ⟨hkept, hl⟩ := OrdMap.get?_eraseAll_eq_some.mp hl
        by_cases ho' : o' = o
        · subst ho'
          obtain ⟨track, ht, hmem⟩ := h.listed hl
          obtain rfl := Option.some.inj (ho.symm.trans ht)
          exact Or.inl ⟨rfl, OffsetTrack.mem_extend hmem hkept⟩
        · exact Or.inr ⟨ho', hl⟩

theorem Consistent.deliver (h : s.Consistent) (o : Offset) (l : LeaseId) (d now : Nat) :
    (s.deliver o l d now).1.Consistent := by
  unfold SubTracking.deliver
  split
  · split
    · exact h
    · have h' : Consistent { s with ackedRecently := s.ackedRecently.erase o } :=
        ⟨h.listed, h.aliases, h.current⟩
      exact h'.trackLease o l d
  · exact h.trackLease o l d

/-- Letting go of some offsets and of all their aliases. -/
theorem Consistent.release (h : s.Consistent) {byOffset : OrdMap Offset OffsetTrack}
    {map : OrdMap LeaseId Offset} (acked : OrdMap Offset Nat)
    (hsub : ∀ {o track}, byOffset.get? o = some track → s.byOffset.get? o = some track)
    (hmap : ∀ {l o}, map.get? l = some o → s.leaseToOffset.get? l = some o ∧
      ∀ track, s.byOffset.get? o = some track → l ∈ track.leases →
        byOffset.get? o = some track) :
    Consistent ⟨byOffset, map, acked⟩ where
  listed hl := by
    obtain ⟨hl, hkept⟩ := hmap hl
    obtain ⟨track, ht, hmem⟩ := h.listed hl
    exact ⟨track, hkept track ht hmem, hmem⟩
  aliases ht := h.aliases (hsub ht)
  current ht := h.current (hsub ht)

/-- A `resolve` finds nothing, or lets go of one offset. -/
theorem resolve_cases (s : SubTracking) (l : LeaseId) (until_ : Option Nat) :
    s.resolve l until_ = (s, none) ∨
    ∃ o track, s.leaseToOffset.get? l = some o ∧ s.byOffset.get? o = some track ∧
      s.resolve l until_ = (⟨s.byOffset.erase o, s.leaseToOffset.eraseAll track.leases,
        until_.elim s.ackedRecently (s.ackedRecently.insert o)⟩, some track.leaseId) := by
  cases hl : s.leaseToOffset.get? l with
  | none => exact Or.inl (by simp only [SubTracking.resolve, hl])
  | some o =>
      cases ho : s.byOffset.get? o with
      | none => exact Or.inl (by simp only [SubTracking.resolve, hl, ho])
      | some track => exact Or.inr ⟨o, track, rfl, ho, by simp only [SubTracking.resolve, hl, ho]⟩

theorem Consistent.resolve (h : s.Consistent) (l : LeaseId) (until_ : Option Nat) :
    (s.resolve l until_).1.Consistent := by
  rcases s.resolve_cases l until_ with heq | ⟨o, track, hl, ho, heq⟩
  · rw [heq]
    exact h
  · rw [heq]
    refine h.release _ (fun {o' track'} ht => ?_) fun {l' o'} hl' => ?_
    · rw [OrdMap.get?_erase] at ht
      split_ifs at ht
      exact ht
    · obtain ⟨hkept, hl'⟩ := OrdMap.get?_eraseAll_eq_some.mp hl'
      refine ⟨hl', fun track' ht' hmem => ?_⟩
      rw [OrdMap.get?_erase, if_neg, ht']
      rintro rfl
      obtain rfl := Option.some.inj (ho.symm.trans ht')
      exact hkept hmem

theorem get?_forgetTracks {tracks : List OffsetTrack} {map : OrdMap LeaseId Offset}
    {l : LeaseId} {o : Offset} :
    (tracks.foldl (fun map track => map.eraseAll track.leases) map).get? l = some o ↔
      map.get? l = some o ∧ ∀ track ∈ tracks, l ∉ track.leases := by
  induction tracks generalizing map with
  | nil => simp
  | cons track rest ih =>
      rw [List.foldl_cons, ih, OrdMap.get?_eraseAll_eq_some, List.forall_mem_cons, and_assoc,
        and_left_comm]

theorem Consistent.liveCount (h : s.Consistent) (now grace : Nat) :
    (s.liveCount now grace).1.Consistent := by
  unfold SubTracking.liveCount
  refine h.release _ (fun {o track} ht => ?_) fun {l o} hl => ?_
  · rw [OrdMap.get?_filter] at ht
    exact (Option.filter_eq_some_iff.mp ht).1
  · obtain ⟨hl, hkept⟩ := get?_forgetTracks.mp hl
    refine ⟨hl, fun track ht hmem => ?_⟩
    rw [OrdMap.get?_filter, ht, Option.filter_some, if_pos]
    by_contra hstale
    refine hkept track (OrdMap.mem_values.mpr ⟨o, ?_⟩) hmem
    rw [OrdMap.get?_filter, ht, Option.filter_some, if_pos (by simpa using hstale)]

/-! ## Where the entries come from -/

/-- Every alias of a tracked offset is a lease on it, and every offset
remembered as acked was acked. -/
structure Sourced (lease : LeaseId → Offset → Prop) (acked : Offset → Prop)
    (s : SubTracking) : Prop where
  leases : ∀ {o track l}, s.byOffset.get? o = some track → l ∈ track.leases → lease l o
  recent : ∀ {o u}, s.ackedRecently.get? o = some u → acked o

variable {lease : LeaseId → Offset → Prop} {acked : Offset → Prop}

theorem Sourced.empty : Sourced lease acked {} where
  leases h := by cases h
  recent h := by cases h

theorem Sourced.mono (h : s.Sourced lease acked) {lease' : LeaseId → Offset → Prop}
    {acked' : Offset → Prop} (hl : ∀ l o, lease l o → lease' l o)
    (ha : ∀ o, acked o → acked' o) : s.Sourced lease' acked' :=
  ⟨fun ht hm => hl _ _ (h.leases ht hm), fun hu => ha _ (h.recent hu)⟩

theorem Sourced.trackLease (h : s.Sourced lease acked) {o : Offset} {l : LeaseId} (d : Nat)
    (hl : lease l o) : (s.trackLease o l d).1.Sourced lease acked := by
  unfold SubTracking.trackLease
  cases ho : s.byOffset.get? o with
  | none =>
      refine ⟨fun {o' track l'} ht hm => ?_, h.recent⟩
      simp only [OrdMap.get?_insert] at ht
      split_ifs at ht with ho'
      · cases ht
        rwa [List.mem_singleton.mp hm, ho']
      · exact h.leases ht hm
  | some old =>
      refine ⟨fun {o' track l'} ht hm => ?_, h.recent⟩
      simp only [OrdMap.get?_insert] at ht
      split_ifs at ht with ho'
      · cases ht
        subst ho'
        rcases OffsetTrack.extend_sub hm with rfl | hm
        · exact hl
        · exact h.leases ho hm
      · exact h.leases ht hm

theorem Sourced.deliver (h : s.Sourced lease acked) {o : Offset} {l : LeaseId} (d now : Nat)
    (hl : lease l o) : (s.deliver o l d now).1.Sourced lease acked ∧
      ((s.deliver o l d now).2 = .alreadyAcked → acked o) := by
  have hnot : ∀ s' : SubTracking, (s'.trackLease o l d).2 ≠ .alreadyAcked := by
    intro s'
    unfold SubTracking.trackLease
    split
    · simp only
      split_ifs <;> nofun
    · nofun
  unfold SubTracking.deliver
  cases hu : s.ackedRecently.get? o with
  | none => exact ⟨h.trackLease d hl, fun h' => absurd h' (hnot _)⟩
  | some u =>
      simp only
      split_ifs with hnow
      · exact ⟨h, fun _ => h.recent hu⟩
      · have h' : Sourced lease acked { s with ackedRecently := s.ackedRecently.erase o } := by
          refine ⟨h.leases, fun {o' u'} hu' => ?_⟩
          rw [OrdMap.get?_erase] at hu'
          split_ifs at hu'
          exact h.recent hu'
        exact ⟨h'.trackLease d hl, fun h' => absurd h' (hnot _)⟩

/-- What a resolved lease stands for: another lease on the same offset. -/
theorem Sourced.resolve (h : s.Sourced lease acked) (hc : s.Consistent) (l : LeaseId)
    (until_ : Option Nat)
    (hacked : until_ ≠ none → ∀ o, s.leaseToOffset.get? l = some o → lease l o → acked o) :
    (s.resolve l until_).1.Sourced lease acked ∧
      ∀ l', (s.resolve l until_).2 = some l' →
        ∃ o, s.leaseToOffset.get? l = some o ∧ lease l o ∧ lease l' o := by
  rcases s.resolve_cases l until_ with heq | ⟨o, track, hl, ho, heq⟩
  · rw [heq]
    exact ⟨h, nofun⟩
  · obtain ⟨track', ho', hmem⟩ := hc.listed hl
    obtain rfl := Option.some.inj (ho.symm.trans ho')
    rw [heq]
    refine ⟨⟨fun {o' track' l'} ht hm => ?_, fun {o' u} hu => ?_⟩, ?_⟩
    · rw [OrdMap.get?_erase] at ht
      split_ifs at ht
      exact h.leases ht hm
    · cases until_ with
      | none => exact h.recent hu
      | some v =>
          rw [Option.elim_some, OrdMap.get?_insert] at hu
          split_ifs at hu with ho'
          · exact ho' ▸ hacked nofun o hl (h.leases ho hmem)
          · exact h.recent hu
    · rintro l' hl'
      obtain rfl := Option.some.inj hl'
      exact ⟨o, hl, h.leases ho hmem, h.leases ho (hc.current ho)⟩

theorem Sourced.liveCount (h : s.Sourced lease acked) (now grace : Nat) :
    (s.liveCount now grace).1.Sourced lease acked := by
  refine ⟨fun {o track l} ht hm => ?_, fun {o u} hu => ?_⟩
  · simp only [SubTracking.liveCount, OrdMap.get?_filter] at ht
    exact h.leases (Option.filter_eq_some_iff.mp ht).1 hm
  · simp only [SubTracking.liveCount, OrdMap.get?_filter] at hu
    exact h.recent (Option.filter_eq_some_iff.mp hu).1

end SubTracking

end HermesMq
