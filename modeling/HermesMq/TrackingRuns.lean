import HermesMq.SubTracking
import Mathlib.Data.List.Induction

/-!
# Runs of the lease bookkeeping

What `SubTracking` says over whole runs. Seen from one offset, an operation
does one of five things (`OffsetStep`), and everything about the cadence of
pushes follows from these: the track of an offset is a function of its
current life, the answers it got since it was last let go (`Trace.Ok`).

The lease map is about all offsets at once: with lease ids that are never
used twice it lists exactly the aliases of the tracked offsets (`Mapped`).
-/

namespace HermesMq

inductive TrackOp where
  | deliver (offset : Offset) (leaseId : LeaseId) (deadlineMs nowMs : Nat)
  | resolve (leaseId : LeaseId) (ackedUntil : Option Nat)
  | liveCount (nowMs graceMs : Nat)
  | drainLeases
deriving DecidableEq

namespace TrackOp

def apply (s : SubTracking) : TrackOp → SubTracking
  | deliver offset leaseId deadlineMs nowMs => (s.deliver offset leaseId deadlineMs nowMs).1
  | resolve leaseId ackedUntil => (s.resolve leaseId ackedUntil).1
  | liveCount nowMs graceMs => (s.liveCount nowMs graceMs).1
  | drainLeases => s.drainLeases.1

/-- The lease id a `deliver` brings. -/
def leaseId? : TrackOp → Option LeaseId
  | deliver _ leaseId _ _ => some leaseId
  | _ => none

/-- The answer to a `deliver` of offset `o`. -/
def answer? (s : SubTracking) (o : Offset) : TrackOp → Option (LeaseId × Delivery)
  | deliver offset leaseId deadlineMs nowMs =>
      if offset = o then some (leaseId, (s.deliver offset leaseId deadlineMs nowMs).2) else none
  | _ => none

end TrackOp

namespace SubTracking

def run (s : SubTracking) (ops : List TrackOp) : SubTracking := ops.foldl TrackOp.apply s

/-! ## One offset -/

/-- What the operations can do to offset `o`: to its track, to its grace
time, and what they answer. -/
inductive OffsetStep (o : Offset) : Option OffsetTrack → Option Nat → TrackOp →
    Option (LeaseId × Delivery) → Option OffsetTrack → Option Nat → Prop
  | acked {track l d now u} (h : now < u) :
      OffsetStep o track (some u) (.deliver o l d now) (some (l, .alreadyAcked)) track (some u)
  | first {acked l d now} :
      OffsetStep o none acked (.deliver o l d now) (some (l, .push)) (some ⟨l, d, 0, [l]⟩) none
  | again {acked l d now} (track : OffsetTrack) :
      OffsetStep o (some track) acked (.deliver o l d now)
        (some (l, if track.refreshable then .refreshed else .push)) (some (track.extend l d)) none
  | resolved {track acked l u} :
      OffsetStep o (some track) acked (.resolve l u) none none (u.or acked)
  | forget {track track' acked acked' op} (ht : track' = none ∨ track' = track)
      (ha : acked' = none ∨ acked' = acked) : OffsetStep o track acked op none track' acked'

theorem trackLease_other {s : SubTracking} {o o' : Offset} (h : o ≠ o') (l : LeaseId) (d : Nat) :
    (s.trackLease o' l d).1.byOffset.get? o = s.byOffset.get? o := by
  unfold trackLease
  split <;> simp [OrdMap.get?_insert, h]

theorem trackLease_ackedRecently (s : SubTracking) (o : Offset) (l : LeaseId) (d : Nat) :
    (s.trackLease o l d).1.ackedRecently = s.ackedRecently := by
  unfold trackLease
  split <;> rfl

/-- Past the check for a recent ack, an offset is tracked anew or once more. -/
theorem trackLease_step {s : SubTracking} {o : Offset} (hacked : s.ackedRecently.get? o = none)
    (acked : Option Nat) (l : LeaseId) (d now : Nat) :
    OffsetStep o (s.byOffset.get? o) acked (.deliver o l d now)
      (some (l, (s.trackLease o l d).2)) ((s.trackLease o l d).1.byOffset.get? o)
      ((s.trackLease o l d).1.ackedRecently.get? o) := by
  rw [trackLease_ackedRecently, hacked]
  unfold trackLease
  cases ht : s.byOffset.get? o with
  | none =>
      rw [OrdMap.get?_insert_self]
      exact .first
  | some track =>
      rw [OrdMap.get?_insert_self]
      exact .again track

theorem deliver_step (s : SubTracking) (o o' : Offset) (l : LeaseId) (d now : Nat) :
    OffsetStep o (s.byOffset.get? o) (s.ackedRecently.get? o) (.deliver o' l d now)
      (TrackOp.answer? s o (.deliver o' l d now)) ((s.deliver o' l d now).1.byOffset.get? o)
      ((s.deliver o' l d now).1.ackedRecently.get? o) := by
  rw [TrackOp.answer?]
  by_cases ho : o' = o
  · subst ho
    rw [if_pos rfl]
    unfold deliver
    cases hu : s.ackedRecently.get? o' with
    | none => exact trackLease_step hu none l d now
    | some u =>
        by_cases hnow : u > now
        · simp only [if_pos hnow, hu]
          exact .acked hnow
        · simp only [if_neg hnow]
          exact trackLease_step (s := { s with ackedRecently := s.ackedRecently.erase o' })
            (by simp) (some u) l d now
  · rw [if_neg ho]
    have hne : o ≠ o' := Ne.symm ho
    unfold deliver
    split
    · split_ifs
      · exact .forget (Or.inr rfl) (Or.inr rfl)
      · refine .forget (Or.inr (trackLease_other hne l d)) (Or.inr ?_)
        rw [trackLease_ackedRecently, OrdMap.get?_erase, if_neg hne]
    · exact .forget (Or.inr (trackLease_other hne l d))
        (Or.inr (by rw [trackLease_ackedRecently]))

theorem resolve_step (s : SubTracking) (o : Offset) (l : LeaseId) (u : Option Nat) :
    OffsetStep o (s.byOffset.get? o) (s.ackedRecently.get? o) (.resolve l u) none
      ((s.resolve l u).1.byOffset.get? o) ((s.resolve l u).1.ackedRecently.get? o) := by
  rcases s.resolve_cases l u with heq | ⟨o', track, -, ht, heq⟩
  · rw [heq]
    exact .forget (Or.inr rfl) (Or.inr rfl)
  · rw [heq]
    by_cases ho : o = o'
    · subst ho
      rw [OrdMap.get?_erase, if_pos rfl, ht]
      cases u with
      | none => exact .resolved
      | some u =>
          rw [Option.elim_some, OrdMap.get?_insert_self]
          exact .resolved
    · rw [OrdMap.get?_erase, if_neg ho]
      refine .forget (Or.inr rfl) (Or.inr ?_)
      cases u with
      | none => rfl
      | some u => rw [Option.elim_some, OrdMap.get?_insert_ne _ _ ho]

theorem filter_cases {α : Type} (x : Option α) (p : α → Bool) :
    x.filter p = none ∨ x.filter p = x := by
  cases x with
  | none => exact Or.inl rfl
  | some a =>
      rw [Option.filter_some]
      split_ifs
      · exact Or.inr rfl
      · exact Or.inl rfl

/-- Every operation is such a step for every offset. -/
theorem offsetStep (s : SubTracking) (o : Offset) (op : TrackOp) :
    OffsetStep o (s.byOffset.get? o) (s.ackedRecently.get? o) op (op.answer? s o)
      ((op.apply s).byOffset.get? o) ((op.apply s).ackedRecently.get? o) := by
  cases op with
  | deliver o' l d now => exact deliver_step s o o' l d now
  | resolve l u => exact resolve_step s o l u
  | liveCount now grace =>
      simp only [TrackOp.apply, liveCount, OrdMap.get?_filter]
      exact .forget (filter_cases _ _) (filter_cases _ _)
  | drainLeases => exact .forget (Or.inl rfl) (Or.inl rfl)

end SubTracking

/-! ## The life of an offset -/

/-- The tracking, with what offset `o` was answered in the whole run, and
since it was last let go. -/
structure Trace where
  tracking : SubTracking := {}
  answers : List (LeaseId × Delivery) := []
  life : List (LeaseId × Delivery) := []

namespace Trace

/-- The operation takes a tracked offset out of the tracking. -/
def removes (s : SubTracking) (o : Offset) (op : TrackOp) : Bool :=
  (s.byOffset.get? o).isSome && ((op.apply s).byOffset.get? o).isNone

def step (o : Offset) (x : Trace) (op : TrackOp) : Trace where
  tracking := op.apply x.tracking
  answers := x.answers ++ (op.answer? x.tracking o).toList
  life :=
    if removes x.tracking o op then []
    else x.life ++ ((op.answer? x.tracking o).filter (·.2 ≠ .alreadyAcked)).toList

end Trace

/-- The run from an empty tracking, seen from offset `o`. -/
def trace (o : Offset) (ops : List TrackOp) : Trace := ops.foldl (Trace.step o) {}

theorem trace_snoc (o : Offset) (ops : List TrackOp) (op : TrackOp) :
    trace o (ops ++ [op]) = (trace o ops).step o op := by
  rw [trace, List.foldl_append]
  rfl

theorem SubTracking.run_snoc (s : SubTracking) (ops : List TrackOp) (op : TrackOp) :
    s.run (ops ++ [op]) = op.apply (s.run ops) := by
  rw [run, List.foldl_append]
  rfl

@[simp] theorem trace_tracking (o : Offset) (ops : List TrackOp) :
    (trace o ops).tracking = ({} : SubTracking).run ops := by
  induction ops using List.reverseRecOn with
  | nil => rfl
  | append_singleton ops op ih => rw [trace_snoc, SubTracking.run_snoc, ← ih]; rfl

/-- The answer at position `i` of a life. -/
def cadence (i : Nat) : Delivery :=
  if subscribeMaxLeaseRefreshes + 1 ∣ i then .push else .refreshed

/-- The track of an offset is what its life makes of it. -/
structure Alive (life : List (LeaseId × Delivery)) (track : OffsetTrack) : Prop where
  refreshes : track.refreshes = (life.length - 1) % (subscribeMaxLeaseRefreshes + 1)
  leases : track.leases = (life.map Prod.fst).drop (life.length - subscribeMaxLeaseAliases)
  current : (life.map Prod.fst).getLast? = some track.leaseId

theorem Alive.length_pos {life : List (LeaseId × Delivery)} {track : OffsetTrack}
    (h : Alive life track) : 0 < life.length := by
  rw [List.length_pos_iff]
  rintro rfl
  cases h.current

theorem Alive.first (l : LeaseId) (d : Nat) (r : Delivery) : Alive [(l, r)] ⟨l, d, 0, [l]⟩ :=
  ⟨rfl, rfl, rfl⟩

theorem Alive.refreshable_iff {life : List (LeaseId × Delivery)} {track : OffsetTrack}
    (h : Alive life track) :
    track.refreshable = true ↔ ¬subscribeMaxLeaseRefreshes + 1 ∣ life.length := by
  have hpos := h.length_pos
  rw [OffsetTrack.refreshable, decide_eq_true_iff, h.refreshes, Nat.dvd_iff_mod_eq_zero]
  simp only [subscribeMaxLeaseRefreshes]
  omega

theorem Alive.again {life : List (LeaseId × Delivery)} {track : OffsetTrack}
    (h : Alive life track) (l : LeaseId) (d : Nat) (r : Delivery) :
    Alive (life ++ [(l, r)]) (track.extend l d) := by
  have hpos := h.length_pos
  refine ⟨?_, ?_, ?_⟩
  · simp only [OffsetTrack.extend, h.refreshable_iff, List.length_append, List.length_singleton,
      Nat.dvd_iff_mod_eq_zero, h.refreshes, subscribeMaxLeaseRefreshes]
    split_ifs <;> omega
  · have hlen : track.leases.length = min life.length subscribeMaxLeaseAliases := by
      rw [h.leases, List.length_drop, List.length_map]
      omega
    have hover : track.overflows = true ↔ subscribeMaxLeaseAliases ≤ life.length := by
      rw [OffsetTrack.overflows, decide_eq_true_iff, hlen]
      omega
    have hsnoc : track.leases ++ [l] =
        ((life ++ [(l, r)]).map Prod.fst).drop (life.length - subscribeMaxLeaseAliases) := by
      rw [h.leases, List.map_append, List.drop_append_of_le_length (by simp)]
      rfl
    simp only [OffsetTrack.extend, hover, hsnoc, List.length_append, List.length_singleton,
      List.tail_drop]
    split_ifs with hlong
    · congr 1
      omega
    · congr 1
      omega
  · simp [OffsetTrack.extend]

/-- The last alias is the current lease. -/
theorem Alive.getLast?_leases {life : List (LeaseId × Delivery)} {track : OffsetTrack}
    (h : Alive life track) : track.leases.getLast? = some track.leaseId := by
  have hpos := h.length_pos
  rw [h.leases, List.getLast?_drop, if_neg, h.current]
  rw [List.length_map]
  simp only [subscribeMaxLeaseAliases]
  omega

/-- What one offset went through: its track, its grace time and its
answers. -/
structure Lived (track : Option OffsetTrack) (acked : Option Nat)
    (answers life : List (LeaseId × Delivery)) : Prop where
  untracked : track = none → life = []
  tracked : ∀ t, track = some t → Alive life t
  cadence : ∀ i l r, life[i]? = some (l, r) → r = cadence i
  recent : life <:+ answers
  disjoint : track = none ∨ acked = none

namespace Lived

variable {o : Offset} {track track' : Option OffsetTrack} {acked acked' : Option Nat}
  {answers life : List (LeaseId × Delivery)} {op : TrackOp} {ans : Option (LeaseId × Delivery)}

/-- An offset that is not tracked. -/
theorem gone (acked : Option Nat) (answers : List (LeaseId × Delivery)) :
    Lived none acked answers [] :=
  ⟨fun _ => rfl, nofun, nofun, List.nil_suffix, Or.inl rfl⟩

/-- One more answer, which tracks the offset. -/
theorem snoc (h : Lived track acked answers life) {t : OffsetTrack} {l : LeaseId} {r : Delivery}
    (halive : Alive (life ++ [(l, r)]) t) (hr : r = HermesMq.cadence life.length) :
    Lived (some t) none (answers ++ [(l, r)]) (life ++ [(l, r)]) where
  untracked := nofun
  tracked t' ht := Option.some.inj ht ▸ halive
  cadence i l' r' hi := by
    rw [List.getElem?_append] at hi
    split_ifs at hi with hlt
    · exact h.cadence i l' r' hi
    · obtain ⟨hzero, heq⟩ := List.getElem?_eq_some_iff.mp hi
      rw [List.length_singleton, Nat.lt_one_iff] at hzero
      have hi' : i = life.length := by omega
      simp only [hzero, List.getElem_cons_zero, Prod.mk.injEq] at heq
      rw [← heq.2, hr, hi']
  recent := by
    obtain ⟨before, hbefore⟩ := h.recent
    exact ⟨before, by rw [← hbefore, List.append_assoc]⟩
  disjoint := Or.inr rfl

theorem step (h : Lived track acked answers life)
    (hstep : SubTracking.OffsetStep o track acked op ans track' acked') :
    Lived track' acked' (answers ++ ans.toList)
      (if track.isSome && track'.isNone then []
        else life ++ (ans.filter (·.2 ≠ .alreadyAcked)).toList) := by
  cases hstep with
  | acked hnow =>
      -- with a grace time the offset is not tracked
      obtain rfl := h.disjoint.resolve_right nofun
      rw [h.untracked rfl]
      exact gone _ _
  | first =>
      obtain rfl := h.untracked rfl
      exact h.snoc (Alive.first ..) rfl
  | again t =>
      have halive := h.tracked t rfl
      have hr : (if t.refreshable then Delivery.refreshed else .push) =
          HermesMq.cadence life.length := by
        rw [HermesMq.cadence]
        by_cases hdvd : subscribeMaxLeaseRefreshes + 1 ∣ life.length
        · rw [if_pos hdvd, if_neg fun hr => halive.refreshable_iff.mp hr hdvd]
        · rw [if_neg hdvd, if_pos (halive.refreshable_iff.mpr hdvd)]
      have hkeep : (if t.refreshable then Delivery.refreshed else .push) ≠ .alreadyAcked := by
        split_ifs <;> nofun
      simpa [Option.filter_some, hkeep] using h.snoc (halive.again _ _ _) hr
  | resolved => exact gone _ _
  | forget ht ha =>
      cases track with
      | none =>
          obtain rfl : track' = none := ht.elim id id
          rw [h.untracked rfl]
          exact gone _ _
      | some t =>
          rcases ht with rfl | rfl
          · exact gone _ _
          · have hacked : acked' = none :=
              ha.elim id fun heq => heq.trans (h.disjoint.resolve_left nofun)
            simpa [hacked] using (⟨h.untracked, h.tracked, h.cadence, h.recent, Or.inr rfl⟩ :
              Lived (some t) none answers life)

end Lived

theorem trace_lived (o : Offset) (ops : List TrackOp) :
    Lived ((({} : SubTracking).run ops).byOffset.get? o)
      ((({} : SubTracking).run ops).ackedRecently.get? o) (trace o ops).answers
      (trace o ops).life := by
  induction ops using List.reverseRecOn with
  | nil => exact Lived.gone none []
  | append_singleton ops op ih =>
      rw [SubTracking.run_snoc, trace_snoc, Trace.step, trace_tracking]
      exact ih.step (SubTracking.offsetStep _ o op)

/-! ## The lease map -/

/-- Every alias is in the map, aliases are distinct, and all of them have
been used. -/
structure Mapped (used : LeaseId → Prop) (s : SubTracking) : Prop where
  mapped : ∀ {o track l}, s.byOffset.get? o = some track → l ∈ track.leases →
    s.leaseToOffset.get? l = some o
  nodup : ∀ {o track}, s.byOffset.get? o = some track → track.leases.Nodup
  used : ∀ {o track l}, s.byOffset.get? o = some track → l ∈ track.leases → used l

theorem OffsetTrack.extend_nodup {track : OffsetTrack} {l : LeaseId} (h : track.leases.Nodup)
    (hl : l ∉ track.leases) (d : Nat) : (track.extend l d).leases.Nodup := by
  have hsnoc : (track.leases ++ [l]).Nodup := List.concat_eq_append ▸ h.concat hl
  simp only [extend]
  split_ifs
  · exact hsnoc.sublist (List.tail_sublist _)
  · exact hsnoc

/-- The alias that goes is none of those that stay. -/
theorem OffsetTrack.not_mem_dropped {track : OffsetTrack} {l l' : LeaseId} {d : Nat}
    (h : track.leases.Nodup) (hl : l ∉ track.leases) (hl' : l' ∈ (track.extend l d).leases) :
    l' ∉ track.dropped l := by
  have hsnoc : (track.leases ++ [l]).Nodup := List.concat_eq_append ▸ h.concat hl
  simp only [extend, dropped] at hl' ⊢
  split_ifs at hl' ⊢
  · cases hall : track.leases ++ [l] with
    | nil => simp
    | cons x rest =>
        rw [hall] at hl' hsnoc
        rw [List.take_succ_cons, List.take_zero, List.mem_singleton]
        rintro rfl
        exact (List.nodup_cons.mp hsnoc).1 hl'
  · exact List.not_mem_nil

theorem OffsetTrack.dropped_sub {track : OffsetTrack} {l l' : LeaseId}
    (h : l' ∈ track.dropped l) : l' = l ∨ l' ∈ track.leases := by
  simp only [dropped] at h
  split_ifs at h
  · rcases List.mem_append.mp (List.mem_of_mem_take h) with hmem | hmem
    · exact Or.inr hmem
    · exact Or.inl (List.mem_singleton.mp hmem)
  · cases h

namespace Mapped

variable {used used' : LeaseId → Prop} {s : SubTracking}

theorem empty : Mapped used {} := ⟨nofun, nofun, nofun⟩

theorem mono (h : Mapped used s) (hsub : ∀ l, used l → used' l) : Mapped used' s :=
  ⟨h.mapped, h.nodup, fun ht hl => hsub _ (h.used ht hl)⟩

/-- A new track for offset `o`, with `l` and some of the aliases it had. -/
theorem put (h : Mapped used s) {o : Offset} {l : LeaseId} {track : OffsetTrack}
    {map : OrdMap LeaseId Offset} (hnodup : track.leases.Nodup)
    (hsub : ∀ l' ∈ track.leases, l' = l ∨ used l')
    (hown : ∀ l' ∈ track.leases, map.get? l' = some o)
    (hothers : ∀ {o' t l'}, o' ≠ o → s.byOffset.get? o' = some t → l' ∈ t.leases →
      map.get? l' = some o') :
    Mapped (fun l' => l' = l ∨ used l')
      { s with byOffset := s.byOffset.insert o track, leaseToOffset := map } := by
  refine ⟨fun {o' t l'} ht hl => ?_, fun {o' t} ht => ?_, fun {o' t l'} ht hl => ?_⟩
  all_goals
    simp only [OrdMap.get?_insert] at ht
    split_ifs at ht with ho
  · cases ht
    rw [ho, hown l' hl]
  · exact hothers ho ht hl
  · cases ht
    exact hnodup
  · exact h.nodup ht
  · cases ht
    exact hsub l' hl
  · exact Or.inr (h.used ht hl)

theorem trackLease (h : Mapped used s) {l : LeaseId} (hfresh : ¬used l) (o : Offset) (d : Nat) :
    Mapped (fun l' => l' = l ∨ used l') (s.trackLease o l d).1 := by
  have hne : ∀ {o' t l'}, s.byOffset.get? o' = some t → l' ∈ t.leases → l' ≠ l :=
    fun ht hl heq => hfresh (heq ▸ h.used ht hl)
  unfold SubTracking.trackLease
  cases ho : s.byOffset.get? o with
  | none =>
      refine h.put (List.nodup_singleton l) (fun l' hl => Or.inl (List.mem_singleton.mp hl))
        (fun l' hl => ?_) fun {o' t l'} _ ht hl => ?_
      · rw [List.mem_singleton.mp hl, OrdMap.get?_insert_self]
      · rw [OrdMap.get?_insert_ne _ _ (hne ht hl), h.mapped ht hl]
  | some old =>
      have hnew : l ∉ old.leases := fun hl => hfresh (h.used ho hl)
      refine h.put (OffsetTrack.extend_nodup (h.nodup ho) hnew d)
        (fun l' hl => (OffsetTrack.extend_sub hl).imp_right (h.used ho)) (fun l' hl => ?_)
        fun {o' t l'} ho' ht hl => ?_
      · rw [OrdMap.get?_insert]
        split_ifs with hl'
        · rfl
        · rw [OrdMap.get?_eraseAll, if_neg (OffsetTrack.not_mem_dropped (h.nodup ho) hnew hl),
            h.mapped ho ((OffsetTrack.extend_sub hl).resolve_left hl')]
      · rw [OrdMap.get?_insert_ne _ _ (hne ht hl), OrdMap.get?_eraseAll, if_neg, h.mapped ht hl]
        -- a dropped alias belongs to offset `o`
        intro hdropped
        have hold := (OffsetTrack.dropped_sub hdropped).resolve_left (hne ht hl)
        exact ho' (Option.some.inj ((h.mapped ht hl).symm.trans (h.mapped ho hold)))

theorem deliver (h : Mapped used s) {l : LeaseId} (hfresh : ¬used l) (o : Offset) (d now : Nat) :
    Mapped (fun l' => l' = l ∨ used l') (s.deliver o l d now).1 := by
  unfold SubTracking.deliver
  split
  · split_ifs
    · exact h.mono fun _ => Or.inr
    · have h' : Mapped used { s with ackedRecently := s.ackedRecently.erase o } :=
        ⟨h.mapped, h.nodup, h.used⟩
      exact h'.trackLease hfresh o d
  · exact h.trackLease hfresh o d

/-- Letting go of some offsets and of aliases that none of the others has. -/
theorem release (h : Mapped used s) {byOffset : OrdMap Offset OffsetTrack}
    {map : OrdMap LeaseId Offset} (acked : OrdMap Offset Nat)
    (hsub : ∀ {o track}, byOffset.get? o = some track → s.byOffset.get? o = some track)
    (hmap : ∀ {l o track}, byOffset.get? o = some track → l ∈ track.leases →
      s.leaseToOffset.get? l = some o → map.get? l = some o) :
    Mapped used ⟨byOffset, map, acked⟩ :=
  ⟨fun ht hl => hmap ht hl (h.mapped (hsub ht) hl), fun ht => h.nodup (hsub ht),
    fun ht hl => h.used (hsub ht) hl⟩

theorem resolve (h : Mapped used s) (l : LeaseId) (u : Option Nat) :
    Mapped used (s.resolve l u).1 := by
  rcases s.resolve_cases l u with heq | ⟨o, track, -, ho, heq⟩
  · rw [heq]
    exact h
  · rw [heq]
    refine h.release _ (fun {o' track'} ht => ?_) fun {l' o' track'} ht hl' hmap => ?_
    · rw [OrdMap.get?_erase] at ht
      split_ifs at ht
      exact ht
    · rw [OrdMap.get?_erase] at ht
      split_ifs at ht with ho'
      refine OrdMap.get?_eraseAll_eq_some.mpr ⟨fun hmem => ho' ?_, hmap⟩
      exact Option.some.inj (hmap.symm.trans (h.mapped ho hmem))

/-- An ack by any listed id is one for the current lease, and lets go of
all the ids. -/
theorem resolve_listed (h : Mapped used s) {o : Offset} {track : OffsetTrack} {l : LeaseId}
    (ht : s.byOffset.get? o = some track) (hl : l ∈ track.leases) (u : Option Nat) :
    s.resolve l u = (⟨s.byOffset.erase o, s.leaseToOffset.eraseAll track.leases,
      u.elim s.ackedRecently (s.ackedRecently.insert o)⟩, some track.leaseId) := by
  simp only [SubTracking.resolve, h.mapped ht hl, ht]

theorem liveCount (h : Mapped used s) (now grace : Nat) :
    Mapped used (s.liveCount now grace).1 := by
  unfold SubTracking.liveCount
  refine h.release _ (fun {o track} ht => ?_) fun {l o track} ht hl hmap => ?_
  · rw [OrdMap.get?_filter] at ht
    exact (Option.filter_eq_some_iff.mp ht).1
  · refine SubTracking.get?_forgetTracks.mpr ⟨hmap, fun stale hstale hmem => ?_⟩
    -- the alias of a stale offset would be of this one, which is not stale
    obtain ⟨o', ho'⟩ := OrdMap.mem_values.mp hstale
    rw [OrdMap.get?_filter, Option.filter_eq_some_iff] at ho' ht
    obtain rfl := Option.some.inj (hmap.symm.trans (h.mapped ho'.1 hmem))
    obtain rfl := Option.some.inj (ht.1.symm.trans ho'.1)
    simp [ho'.2] at ht

theorem apply (h : Mapped used s) {op : TrackOp} (hfresh : ∀ l, op.leaseId? = some l → ¬used l) :
    Mapped (fun l => op.leaseId? = some l ∨ used l) (op.apply s) := by
  cases op with
  | deliver o l d now =>
      exact (h.deliver (hfresh l rfl) o d now).mono fun l' =>
        Or.imp_left fun heq => congrArg some heq.symm
  | resolve l u => exact (h.resolve l u).mono fun _ => Or.inr
  | liveCount now grace => exact (h.liveCount now grace).mono fun _ => Or.inr
  | drainLeases => exact empty

end Mapped

theorem TrackOp.apply_consistent {s : SubTracking} (h : s.Consistent) (op : TrackOp) :
    (op.apply s).Consistent := by
  cases op with
  | deliver o l d now => exact h.deliver o l d now
  | resolve l u => exact h.resolve l u
  | liveCount now grace => exact h.liveCount now grace
  | drainLeases => exact SubTracking.Consistent.empty

theorem run_consistent (ops : List TrackOp) : (({} : SubTracking).run ops).Consistent :=
  List.foldlRecOn ops TrackOp.apply SubTracking.Consistent.empty fun _ h op _ =>
    op.apply_consistent h

/-- Runs that use no lease id twice. -/
theorem run_mapped {ops : List TrackOp} (hfresh : (ops.filterMap TrackOp.leaseId?).Nodup) :
    Mapped (· ∈ ops.filterMap TrackOp.leaseId?) (({} : SubTracking).run ops) := by
  induction ops using List.reverseRecOn with
  | nil => exact Mapped.empty
  | append_singleton ops op ih =>
      rw [List.filterMap_append, List.nodup_append'] at hfresh
      rw [SubTracking.run_snoc]
      refine ((ih hfresh.1).apply fun l hl hused => ?_).mono fun l hl => ?_
      · exact hfresh.2.2 hused (by simp [hl])
      · rw [List.filterMap_append, List.mem_append]
        exact hl.symm.imp_right fun hl => by simp [hl]

/-! ## Late acks -/

/-- The id most recently answered `Push`. -/
def lastPush (answers : List (LeaseId × Delivery)) : Option LeaseId :=
  ((answers.filter (·.2 = .push)).getLast?).map Prod.fst

/-- The last push of a tracked offset is at most two refreshes back, so it
is still listed. -/
theorem Lived.lastPush_mem {track : OffsetTrack} {acked : Option Nat}
    {answers life : List (LeaseId × Delivery)} (h : Lived (some track) acked answers life) :
    ∃ l, lastPush answers = some l ∧ l ∈ track.leases := by
  have halive := h.tracked track rfl
  have hpos := halive.length_pos
  obtain ⟨i, hi, hdvd, hnear⟩ : ∃ i, i < life.length ∧ subscribeMaxLeaseRefreshes + 1 ∣ i ∧
      life.length ≤ i + subscribeMaxLeaseRefreshes + 1 := by
    refine ⟨(life.length - 1) / 3 * 3, ?_, Nat.dvd_mul_left 3 _, ?_⟩
    · omega
    · simp only [subscribeMaxLeaseRefreshes]
      omega
  obtain ⟨l, r, hlr⟩ : ∃ l r, life[i] = (l, r) := ⟨_, _, rfl⟩
  have hpush : r = .push :=
    (h.cadence i l r (by rw [List.getElem?_eq_getElem hi, hlr])).trans (if_pos hdvd)
  have hrest : (life.drop (i + 1)).filter (·.2 = .push) = [] := by
    rw [List.filter_eq_nil_iff]
    rintro ⟨l', r'⟩ hmem
    obtain ⟨j, hj⟩ := List.mem_iff_getElem?.mp hmem
    rw [List.getElem?_drop] at hj
    have hlt := (List.getElem?_eq_some_iff.mp hj).1
    have hndvd : ¬subscribeMaxLeaseRefreshes + 1 ∣ i + 1 + j := by
      simp only [subscribeMaxLeaseRefreshes] at hdvd hnear ⊢
      omega
    have hr : r' = .refreshed := (h.cadence _ l' r' hj).trans (if_neg hndvd)
    simp [hr]
  refine ⟨l, ?_, ?_⟩
  · obtain ⟨before, hbefore⟩ := h.recent
    have hsplit : life = life.take i ++ (l, r) :: life.drop (i + 1) := by
      rw [← hlr, List.getElem_cons_drop, List.take_append_drop]
    rw [lastPush, ← hbefore, hsplit, List.filter_append, List.filter_append,
      List.filter_cons_of_pos (by simp [hpush]), hrest, ← List.append_assoc,
      List.getLast?_concat]
    rfl
  · rw [halive.leases, List.mem_iff_getElem?]
    refine ⟨i - (life.length - subscribeMaxLeaseAliases), ?_⟩
    simp only [subscribeMaxLeaseRefreshes, subscribeMaxLeaseAliases] at hnear ⊢
    rw [List.getElem?_drop, Nat.add_sub_cancel' (by omega), List.getElem?_map,
      List.getElem?_eq_getElem hi, hlr]
    rfl

/-- The lists of aliases and the lease map of a run with fresh lease ids,
and what an ack by any listed id does. -/
theorem late_ack_reaches_live_lease {ops : List TrackOp}
    (hfresh : (ops.filterMap TrackOp.leaseId?).Nodup) :
    let s := ({} : SubTracking).run ops
    (∀ l o, s.leaseToOffset.get? l = some o ↔
      ∃ track, s.byOffset.get? o = some track ∧ l ∈ track.leases) ∧
    (∀ o o' track track', s.byOffset.get? o = some track → s.byOffset.get? o' = some track' →
      o ≠ o' → track.leases.Disjoint track'.leases) ∧
    ∀ o track, s.byOffset.get? o = some track →
      (1 ≤ track.leases.length ∧ track.leases.length ≤ subscribeMaxLeaseAliases) ∧
      track.leases <:+ (trace o ops).answers.map Prod.fst ∧
      track.leases.getLast? = some track.leaseId ∧
      (∃ l, lastPush (trace o ops).answers = some l ∧ l ∈ track.leases) ∧
      ∀ l ∈ track.leases, ∀ u,
        (s.resolve l u).2 = ((trace o ops).answers.map Prod.fst).getLast? ∧
        (s.resolve l u).1.byOffset = s.byOffset.erase o ∧
        (∀ l', (s.resolve l u).1.leaseToOffset.get? l' =
          if l' ∈ track.leases then none else s.leaseToOffset.get? l') ∧
        ∀ l' ∈ track.leases, ∀ u', ((s.resolve l u).1.resolve l' u').2 = none := by
  intro s
  have hconsistent : s.Consistent := run_consistent ops
  have hmapped := run_mapped hfresh
  refine ⟨fun l o => ⟨hconsistent.listed, fun ⟨_, ht, hl⟩ => hmapped.mapped ht hl⟩,
    fun o o' track track' ht ht' hne l hl hl' => hne (Option.some.inj
      ((hmapped.mapped ht hl).symm.trans (hmapped.mapped ht' hl'))), fun o track ht => ?_⟩
  have hlived := trace_lived o ops
  rw [ht] at hlived
  have halive := hlived.tracked track rfl
  have hrecent : (trace o ops).life.map Prod.fst <:+ (trace o ops).answers.map Prod.fst :=
    hlived.recent.map Prod.fst
  have hsuffix : track.leases <:+ (trace o ops).answers.map Prod.fst := by
    rw [halive.leases]
    exact (List.drop_suffix ..).trans hrecent
  have hlast := halive.getLast?_leases
  have hne : track.leases ≠ [] := fun hnil => by rw [hnil] at hlast; cases hlast
  refine ⟨⟨List.length_pos_iff.mpr hne, hconsistent.aliases ht⟩, hsuffix, hlast,
    hlived.lastPush_mem, fun l hl u => ?_⟩
  rw [hmapped.resolve_listed ht hl]
  refine ⟨?_, rfl, OrdMap.get?_eraseAll _, fun l' hl' u' => ?_⟩
  · obtain ⟨before, hbefore⟩ := hsuffix
    rw [← hbefore, List.getLast?_append_of_ne_nil _ hne, hlast]
  · simp only [SubTracking.resolve, OrdMap.get?_eraseAll, if_pos hl']

/-- A push and a refresh of offset 7, then an ack by the first of the ids. -/
def refreshedOnce : List TrackOp := [.deliver 7 1 10 0, .deliver 7 2 30 20]

theorem late_ack_reaches_live_lease_refreshed :
    ((({} : SubTracking).run refreshedOnce).resolve 1 (some 40)).2 = some 2 ∧
      (((({} : SubTracking).run refreshedOnce).resolve 1 (some 40)).1.resolve 2 none).2 = none := by
  have ht : (({} : SubTracking).run refreshedOnce).byOffset.get? 7 = some ⟨2, 30, 1, [1, 2]⟩ := by
    decide
  have hfresh : (refreshedOnce.filterMap TrackOp.leaseId?).Nodup := by decide
  have hresolve := ((late_ack_reaches_live_lease hfresh).2.2 7 _ ht).2.2.2.2 1 (by decide) (some 40)
  exact ⟨hresolve.1.trans (by decide), hresolve.2.2.2 2 (by decide) none⟩

/-! ## Bounded silence -/

/-- An ack until `u` let the offset go, and it was not pushed since. -/
def AckedSince (o : Offset) (u : Nat) (ops : List TrackOp) : Prop :=
  ∃ pre l post, ops = pre ++ .resolve l (some u) :: post ∧
    Trace.removes (({} : SubTracking).run pre) o (.resolve l (some u)) = true ∧
    ∃ rest, (trace o ops).answers = (trace o pre).answers ++ rest ∧ ∀ x ∈ rest, x.2 ≠ .push

theorem trace_answers_snoc (o : Offset) (ops : List TrackOp) (op : TrackOp) :
    (trace o (ops ++ [op])).answers =
      (trace o ops).answers ++ (op.answer? (({} : SubTracking).run ops) o).toList := by
  rw [trace_snoc, Trace.step, trace_tracking]

theorem AckedSince.snoc {o : Offset} {u : Nat} {ops : List TrackOp} (h : AckedSince o u ops)
    {op : TrackOp} {ans : Option (LeaseId × Delivery)}
    (hans : op.answer? (({} : SubTracking).run ops) o = ans)
    (hquiet : ∀ x ∈ ans.toList, x.2 ≠ .push) : AckedSince o u (ops ++ [op]) := by
  obtain ⟨pre, l, post, hops, hremoves, rest, hrest, hnone⟩ := h
  refine ⟨pre, l, post ++ [op], by simp [hops], hremoves, rest ++ ans.toList, ?_,
    List.forall_mem_append.mpr ⟨hnone, hquiet⟩⟩
  rw [trace_answers_snoc, hans, hrest, List.append_assoc]

/-- A grace time comes from such an ack. -/
theorem acked_source (o : Offset) {ops : List TrackOp} {u : Nat}
    (h : (({} : SubTracking).run ops).ackedRecently.get? o = some u) : AckedSince o u ops := by
  induction ops using List.reverseRecOn with
  | nil => cases h
  | append_singleton ops op ih =>
      rw [SubTracking.run_snoc] at h
      have hstep := (({} : SubTracking).run ops).offsetStep o op
      rw [h] at hstep
      generalize hans : op.answer? (({} : SubTracking).run ops) o = ans at hstep
      generalize (({} : SubTracking).run ops).ackedRecently.get? o = acked at hstep ih
      generalize hbefore : (({} : SubTracking).run ops).byOffset.get? o = track at hstep
      generalize hafter : (op.apply (({} : SubTracking).run ops)).byOffset.get? o = track' at hstep
      generalize hu : some u = acked' at hstep
      cases hstep with
      | acked hnow => exact (ih hu.symm).snoc hans (by simp)
      | first | again => cases hu
      | @resolved t acked l u' =>
          cases u' with
          | none => exact (ih hu.symm).snoc hans (by simp)
          | some v =>
              obtain rfl : u = v := Option.some.inj hu
              refine ⟨ops, l, [], rfl, ?_, [], ?_, nofun⟩
              · rw [Trace.removes, hbefore, hafter]
                rfl
              · rw [trace_answers_snoc, hans]
                rfl
      | forget ht ha =>
          rcases ha with rfl | rfl
          · cases hu
          · exact (ih hu.symm).snoc hans (by simp)

/-- A life of an offset is a push and two refreshes, over and over; and an
offset is taken for acked only after an ack that let it go, until later
than now, since its last push. -/
theorem silent_refreshes_bounded (o : Offset) (ops : List TrackOp) :
    (∀ i l r, (trace o ops).life[i]? = some (l, r) → r = cadence i) ∧
    ∀ l d now, ((({} : SubTracking).run ops).deliver o l d now).2 = .alreadyAcked →
      ∃ u, now < u ∧ AckedSince o u ops := by
  refine ⟨(trace_lived o ops).cadence, fun l d now hanswer => ?_⟩
  have hstep := (({} : SubTracking).run ops).deliver_step o o l d now
  rw [TrackOp.answer?, if_pos rfl, hanswer] at hstep
  generalize hacked : (({} : SubTracking).run ops).ackedRecently.get? o = acked at hstep
  generalize hans : some (l, Delivery.alreadyAcked) = ans at hstep
  generalize (({} : SubTracking).run ops).byOffset.get? o = track at hstep
  generalize ((({} : SubTracking).run ops).deliver o l d now).1.byOffset.get? o = track' at hstep
  generalize ((({} : SubTracking).run ops).deliver o l d now).1.ackedRecently.get? o = acked'
    at hstep
  cases hstep with
  | @acked _ _ _ _ u hnow => exact ⟨u, hnow, acked_source o hacked⟩
  | first => cases hans
  | again t =>
      have hr := (Prod.mk.inj (Option.some.inj hans)).2
      split_ifs at hr
  | forget => cases hans

/-- Push, refreshed, refreshed, push; and an ack by the second id that
covers a redelivery. -/
def ackedLate : List TrackOp :=
  [.deliver 7 1 10 0, .deliver 7 2 30 20, .deliver 7 3 50 40, .deliver 7 4 70 60,
    .resolve 2 (some 100)]

theorem silent_refreshes_bounded_acked :
    (trace 7 (ackedLate.take 4)).life.map Prod.snd = [.push, .refreshed, .refreshed, .push] ∧
      ∃ u, 80 < u ∧ AckedSince 7 u ackedLate :=
  ⟨by decide, (silent_refreshes_bounded 7 ackedLate).2 5 90 80 (by decide)⟩

end HermesMq
