import HermesMq.Types
import HermesMq.Watermark
import Mathlib.Data.Finset.Card
import Mathlib.Data.Finset.Max
import Mathlib.Data.Nat.SuccPred

/-!
# Consumer group state

A group remembers which offsets it is done with (`ackWatermark` and the
acked offsets above it) and which it holds under lease, the latter twice:
by lease id (`inFlight`) and by offset (`leasedOffsets`).

The first half is the code: acknowledging, expiring, advancing. The
second half is what callers use instead of unfolding it - the effect of
each operation on the done set, on the two lease maps, and on everything
it leaves alone.

`LeasesAgree` is the part of the agreement between the two lease maps
that survives even a saturated lease counter: every lease in flight is
in the offset map, and no two of them share an offset. `LeasesBacked` is
the converse, which needs fresh lease ids.
-/

namespace HermesMq

structure Lease where
  offset : Offset
  deadlineMs : Nat
deriving DecidableEq, Repr

@[ext]
structure GroupState where
  ackWatermark : Offset := 0
  ackedAbove : Finset Offset := ∅
  inFlight : OrdMap LeaseId Lease := ∅
  leasedOffsets : OrdMap Offset Nat := ∅
  pollCount : Nat := 0
  lastActiveMs : Nat := 0
deriving DecidableEq

/-- `while acked_above.remove(&watermark) { watermark += 1 }`. Every
round removes an element, so the cardinality is enough fuel. -/
def absorb : Nat → Offset → Finset Offset → Offset × Finset Offset
  | 0, w, s => (w, s)
  | fuel + 1, w, s =>
      if w ∈ s then absorb fuel (satAdd w 1) (s.erase w) else (w, s)

namespace GroupState

/-! ## The code -/

def absorbAcked (g : GroupState) : GroupState :=
  let r := absorb g.ackedAbove.card g.ackWatermark g.ackedAbove
  { g with ackWatermark := r.1, ackedAbove := r.2 }

def markAcked (g : GroupState) (offset : Offset) : GroupState :=
  if offset < g.ackWatermark then g
  else absorbAcked { g with ackedAbove := insert offset g.ackedAbove }

/-- `if let Some(l) = in_flight.remove(&id) { leased_offsets.remove(&l.offset) }`. -/
def removeLease (g : GroupState) (id : LeaseId) : GroupState :=
  match g.inFlight.get? id with
  | none => g
  | some l =>
      { g with inFlight := g.inFlight.erase id
               leasedOffsets := g.leasedOffsets.erase l.offset }

/-- Collect the ids of the leases satisfying `p`, then remove each. -/
def dropLeases (g : GroupState) (p : Lease → Bool) : GroupState :=
  (g.inFlight.filter fun _ l => p l).keys.foldl removeLease g

def expire (g : GroupState) (nowMs : Nat) : GroupState :=
  g.dropLeases fun l => l.deadlineMs ≤ nowMs

def advanceWatermark (g : GroupState) (upto : Offset) : GroupState :=
  let g := if upto > g.ackWatermark then { g with ackWatermark := upto } else g
  let watermark := g.ackWatermark
  let g := { g with ackedAbove := g.ackedAbove.filter (watermark ≤ ·) }
  let g := g.dropLeases fun l => l.offset < watermark
  g.absorbAcked

/-- The lease a poll takes on one chosen offset. -/
def takeLease (g : GroupState) (leaseId : LeaseId) (offset : Offset)
    (deadlineMs : Nat) : GroupState :=
  { g with inFlight := g.inFlight.insert leaseId ⟨offset, deadlineMs⟩
           leasedOffsets := g.leasedOffsets.insert offset deadlineMs }

/-- The part of `ack` inside the group. -/
def ackLease (g : GroupState) (leaseId : LeaseId) : GroupState :=
  match g.inFlight.get? leaseId with
  | none => g
  | some l => (g.removeLease leaseId).markAcked l.offset

/-- What a poll does to its group before it selects anything: expire,
stamp the activity clock, count the poll. -/
def beginPoll (g : GroupState) (tsMs : Nat) : GroupState :=
  let g := g.expire tsMs
  { g with lastActiveMs := max g.lastActiveMs tsMs
           pollCount := satAdd g.pollCount 1 }

/-- `g.last_active_ms = g.last_active_ms.max(now_ms)` when a clock is given. -/
def touch (g : GroupState) : Option Nat → GroupState
  | none => g
  | some nowMs => { g with lastActiveMs := max g.lastActiveMs nowMs }

/-- The sweep's stamp on a group that has no activity clock yet. -/
def stamp (g : GroupState) (nowMs : Nat) : GroupState :=
  if g.lastActiveMs = 0 then { g with lastActiveMs := nowMs } else g

/-- Offset `o` is behind the group: below the watermark or acked above it. -/
def Done (g : GroupState) (o : Offset) : Prop :=
  o < g.ackWatermark ∨ o ∈ g.ackedAbove

instance (g : GroupState) (o : Offset) : Decidable (g.Done o) :=
  inferInstanceAs (Decidable (_ ∨ _))

end GroupState

/-! ## The absorbing loop -/

theorem absorb_le_max {w : Offset} (hw : w ≤ u64Max) (n : Nat)
    (s : Finset Offset) : (absorb n w s).1 ≤ u64Max := by
  induction n generalizing w s with
  | zero => exact hw
  | succ n ih =>
      rw [absorb]
      split_ifs
      · exact ih (satAdd_le_max ..) _
      · exact hw

theorem le_absorb {w : Offset} (hw : w ≤ u64Max) (n : Nat)
    (s : Finset Offset) : w ≤ (absorb n w s).1 := by
  induction n generalizing w s with
  | zero => exact le_rfl
  | succ n ih =>
      rw [absorb]
      split_ifs
      · exact (le_satAdd hw 1).trans (ih (satAdd_le_max ..) _)
      · exact le_rfl

theorem absorb_subset (n : Nat) (w : Offset) (s : Finset Offset) :
    (absorb n w s).2 ⊆ s := by
  induction n generalizing w s with
  | zero => exact Finset.Subset.refl _
  | succ n ih =>
      rw [absorb]
      split_ifs
      · exact (ih _ _).trans (Finset.erase_subset ..)
      · exact Finset.Subset.refl _

/-- The loop ends because its guard fails, not because fuel runs out. -/
theorem absorb_not_mem {n : Nat} {w : Offset} {s : Finset Offset}
    (hn : s.card ≤ n) : (absorb n w s).1 ∉ (absorb n w s).2 := by
  induction n generalizing w s with
  | zero =>
      rw [Nat.le_zero, Finset.card_eq_zero] at hn
      simp [absorb, hn]
  | succ n ih =>
      rw [absorb]
      split_ifs with hw
      · refine ih ?_
        rw [Finset.card_erase_of_mem hw]
        omega
      · exact hw

/-- More fuel than that changes nothing. -/
theorem absorb_enough {n : Nat} {w : Offset} {s : Finset Offset} (hn : s.card ≤ n) :
    absorb n w s = absorb s.card w s := by
  induction n generalizing w s with
  | zero => rw [Nat.le_zero.mp hn]
  | succ n ih =>
      rw [absorb]
      split_ifs with hw
      · have hcard := Finset.card_erase_add_one hw
        rw [ih (by omega), ← hcard, absorb, if_pos hw]
      · cases s.card with
        | zero => rfl
        | succ k => rw [absorb, if_neg hw]

/-- Absorbing moves offsets from the set to below the watermark and
changes nothing else. The last `u64` is left out: there the watermark
cannot move past the offset it removes. -/
theorem absorb_done {w : Offset} (hw : w ≤ u64Max) (n : Nat) (s : Finset Offset)
    {o : Offset} (ho : o < u64Max) :
    (o < (absorb n w s).1 ∨ o ∈ (absorb n w s).2) ↔ (o < w ∨ o ∈ s) := by
  induction n generalizing w s with
  | zero => exact Iff.rfl
  | succ n ih =>
      rw [absorb]
      split_ifs with hmem
      · rw [ih (satAdd_le_max ..)]
        rcases Nat.lt_or_eq_of_le hw with hlt | rfl
        · rw [satAdd_one_of_lt hlt]
          exact Set.ext_iff.mp (Watermark.denote_succ_erase hmem) o
        · have hsat : satAdd u64Max 1 = u64Max := by decide
          rw [hsat]
          exact ⟨fun _ => Or.inl ho, fun _ => Or.inl ho⟩
      · exact Iff.rfl

/-- The watermark moves only over offsets of the set. -/
theorem absorb_le_of_not_mem {n : Nat} {w o : Offset} {s : Finset Offset}
    (hle : w ≤ o) (ho : o ∉ s) : (absorb n w s).1 ≤ o := by
  induction n generalizing w s with
  | zero => exact hle
  | succ n ih =>
      rw [absorb]
      split_ifs with hmem
      · refine ih ?_ (fun h => ho (Finset.mem_of_mem_erase h))
        have hne : w ≠ o := fun h => ho (h ▸ hmem)
        exact (satAdd_le_add w 1).trans (Nat.lt_of_le_of_ne hle hne)
      · exact hle

theorem absorb_le_of_bound {n : Nat} {w b : Offset} {s : Finset Offset}
    (hw : w ≤ b) (hs : ∀ o ∈ s, o < b) : (absorb n w s).1 ≤ b :=
  absorb_le_of_not_mem hw fun h => absurd (hs b h) (lt_irrefl b)

theorem absorb_above {n : Nat} {w : Offset} {s : Finset Offset}
    (hs : ∀ o ∈ s, w ≤ o) : ∀ o ∈ (absorb n w s).2, (absorb n w s).1 ≤ o := by
  induction n generalizing w s with
  | zero => exact hs
  | succ n ih =>
      rw [absorb]
      split_ifs with hmem
      · refine ih fun o ho => ?_
        rw [Finset.mem_erase] at ho
        exact (satAdd_le_add w 1).trans (Nat.lt_of_le_of_ne (hs o ho.2) (Ne.symm ho.1))
      · exact hs

/-- What the loop leaves in the set is strictly above where it stops. -/
theorem absorb_gt {n : Nat} {w : Offset} {s : Finset Offset} (hn : s.card ≤ n)
    (hs : ∀ o ∈ s, w ≤ o) : ∀ o ∈ (absorb n w s).2, (absorb n w s).1 < o := by
  intro o ho
  refine lt_of_le_of_ne (absorb_above hs o ho) fun heq => ?_
  exact absorb_not_mem hn (heq ▸ ho)

namespace GroupState

/-! ## Fields an operation leaves alone -/

@[simp] theorem absorbAcked_inFlight (g : GroupState) :
    g.absorbAcked.inFlight = g.inFlight := rfl

@[simp] theorem absorbAcked_leasedOffsets (g : GroupState) :
    g.absorbAcked.leasedOffsets = g.leasedOffsets := rfl

@[simp] theorem absorbAcked_pollCount (g : GroupState) :
    g.absorbAcked.pollCount = g.pollCount := rfl

@[simp] theorem absorbAcked_lastActiveMs (g : GroupState) :
    g.absorbAcked.lastActiveMs = g.lastActiveMs := rfl

@[simp] theorem markAcked_inFlight (g : GroupState) (o : Offset) :
    (g.markAcked o).inFlight = g.inFlight := by
  unfold markAcked; split <;> rfl

@[simp] theorem markAcked_leasedOffsets (g : GroupState) (o : Offset) :
    (g.markAcked o).leasedOffsets = g.leasedOffsets := by
  unfold markAcked; split <;> rfl

@[simp] theorem markAcked_lastActiveMs (g : GroupState) (o : Offset) :
    (g.markAcked o).lastActiveMs = g.lastActiveMs := by
  unfold markAcked; split <;> rfl

@[simp] theorem markAcked_pollCount (g : GroupState) (o : Offset) :
    (g.markAcked o).pollCount = g.pollCount := by
  unfold markAcked; split <;> rfl

/-- `g'` differs from `g` at most in the two lease maps. -/
structure SameButLeases (g g' : GroupState) : Prop where
  ackWatermark : g'.ackWatermark = g.ackWatermark
  ackedAbove : g'.ackedAbove = g.ackedAbove
  pollCount : g'.pollCount = g.pollCount
  lastActiveMs : g'.lastActiveMs = g.lastActiveMs

theorem SameButLeases.done {g g' : GroupState} (h : SameButLeases g g')
    {o : Offset} : g'.Done o ↔ g.Done o := by
  rw [Done, Done, h.ackWatermark, h.ackedAbove]

theorem sameButLeases_removeLease (g : GroupState) (id : LeaseId) :
    SameButLeases g (g.removeLease id) := by
  unfold removeLease
  split <;> exact ⟨rfl, rfl, rfl, rfl⟩

theorem sameButLeases_dropLeases (g : GroupState) (p : Lease → Bool) :
    SameButLeases g (g.dropLeases p) :=
  List.foldlRecOn _ _ ⟨rfl, rfl, rfl, rfl⟩ fun b hb id _ =>
    have h := sameButLeases_removeLease b id
    ⟨h.1.trans hb.1, h.2.trans hb.2, h.3.trans hb.3, h.4.trans hb.4⟩

@[simp] theorem removeLease_ackWatermark (g : GroupState) (id : LeaseId) :
    (g.removeLease id).ackWatermark = g.ackWatermark :=
  (sameButLeases_removeLease g id).ackWatermark

@[simp] theorem beginPoll_ackWatermark (g : GroupState) (ts : Nat) :
    (g.beginPoll ts).ackWatermark = g.ackWatermark :=
  (sameButLeases_dropLeases g _).ackWatermark

@[simp] theorem beginPoll_ackedAbove (g : GroupState) (ts : Nat) :
    (g.beginPoll ts).ackedAbove = g.ackedAbove :=
  (sameButLeases_dropLeases g _).ackedAbove

@[simp] theorem touch_ackWatermark (g : GroupState) (now : Option Nat) :
    (g.touch now).ackWatermark = g.ackWatermark := by
  cases now <;> rfl

@[simp] theorem touch_ackedAbove (g : GroupState) (now : Option Nat) :
    (g.touch now).ackedAbove = g.ackedAbove := by
  cases now <;> rfl

@[simp] theorem touch_inFlight (g : GroupState) (now : Option Nat) :
    (g.touch now).inFlight = g.inFlight := by
  cases now <;> rfl

@[simp] theorem touch_leasedOffsets (g : GroupState) (now : Option Nat) :
    (g.touch now).leasedOffsets = g.leasedOffsets := by
  cases now <;> rfl

@[simp] theorem stamp_ackWatermark (g : GroupState) (now : Nat) :
    (g.stamp now).ackWatermark = g.ackWatermark := by
  unfold stamp; split <;> rfl

@[simp] theorem stamp_ackedAbove (g : GroupState) (now : Nat) :
    (g.stamp now).ackedAbove = g.ackedAbove := by
  unfold stamp; split <;> rfl

@[simp] theorem stamp_inFlight (g : GroupState) (now : Nat) :
    (g.stamp now).inFlight = g.inFlight := by
  unfold stamp; split <;> rfl

@[simp] theorem stamp_leasedOffsets (g : GroupState) (now : Nat) :
    (g.stamp now).leasedOffsets = g.leasedOffsets := by
  unfold stamp; split <;> rfl

@[simp] theorem beginPoll_done (g : GroupState) (ts : Nat) (o : Offset) :
    (g.beginPoll ts).Done o ↔ g.Done o :=
  (sameButLeases_dropLeases g _).done

@[simp] theorem takeLease_done (g : GroupState) (id : LeaseId) (o d o' : Nat) :
    (g.takeLease id o d).Done o' ↔ g.Done o' := Iff.rfl

@[simp] theorem touch_done (g : GroupState) (now : Option Nat) (o : Offset) :
    (g.touch now).Done o ↔ g.Done o := by
  cases now <;> exact Iff.rfl

@[simp] theorem stamp_done (g : GroupState) (now : Nat) (o : Offset) :
    (g.stamp now).Done o ↔ g.Done o := by
  unfold stamp; split <;> exact Iff.rfl

/-! ## The done set -/

theorem markAcked_done {g : GroupState} (hw : g.ackWatermark ≤ u64Max)
    (a : Offset) {o : Offset} (ho : o < u64Max) :
    (g.markAcked a).Done o ↔ g.Done o ∨ o = a := by
  unfold markAcked
  split_ifs with hlt
  · refine ⟨Or.inl, ?_⟩
    rintro (h | rfl)
    · exact h
    · exact Or.inl hlt
  · refine (absorb_done hw _ _ ho).trans ?_
    simp only [Finset.mem_insert, Done]
    tauto

theorem ackLease_done {g : GroupState} (hw : g.ackWatermark ≤ u64Max)
    (id : LeaseId) {o : Offset} (ho : o < u64Max) :
    (g.ackLease id).Done o ↔
      g.Done o ∨ ∃ l, g.inFlight.get? id = some l ∧ l.offset = o := by
  have hs := sameButLeases_removeLease g id
  unfold ackLease
  split
  · rename_i hnone
    simp [hnone]
  · rename_i l hl
    rw [markAcked_done (hs.ackWatermark ▸ hw) _ ho, hs.done]
    simp [hl, eq_comm]

/-- The watermark at `w`, and nothing acked below it. -/
def raise (g : GroupState) (w : Offset) : GroupState :=
  { g with ackWatermark := w, ackedAbove := g.ackedAbove.filter (w ≤ ·) }

/-- `advanceWatermark` with its steps read off: raise the watermark, drop
the leases below it, absorb. -/
theorem advanceWatermark_eq (g : GroupState) (upto : Offset) :
    g.advanceWatermark upto =
      ((g.raise (max g.ackWatermark upto)).dropLeases
        fun l => l.offset < max g.ackWatermark upto).absorbAcked := by
  have hraise : (if upto > g.ackWatermark then { g with ackWatermark := upto } else g)
      = { g with ackWatermark := max g.ackWatermark upto } := by
    split_ifs with h
    · rw [max_eq_right (le_of_lt h)]
    · rw [max_eq_left (not_lt.mp h)]
  unfold advanceWatermark
  rw [hraise]
  rfl

theorem advanceWatermark_done {g : GroupState} (hw : g.ackWatermark ≤ u64Max)
    {upto : Offset} (hto : upto ≤ u64Max) {o : Offset} (ho : o < u64Max) :
    (g.advanceWatermark upto).Done o ↔ g.Done o ∨ o < upto := by
  have hs := sameButLeases_dropLeases (g.raise (max g.ackWatermark upto))
    fun l => l.offset < max g.ackWatermark upto
  rw [advanceWatermark_eq]
  refine (absorb_done (hs.ackWatermark.trans_le (max_le hw hto)) _ _ ho).trans ?_
  rw [hs.ackWatermark, hs.ackedAbove]
  simp only [raise, Finset.mem_filter, Done]
  constructor
  · rintro (h | ⟨h, -⟩)
    · rcases lt_max_iff.mp h with h | h
      · exact Or.inl (Or.inl h)
      · exact Or.inr h
    · exact Or.inl (Or.inr h)
  · rintro ((h | h) | h)
    · exact Or.inl (lt_max_of_lt_left h)
    · by_cases hlt : o < max g.ackWatermark upto
      · exact Or.inl hlt
      · exact Or.inr ⟨h, not_lt.mp hlt⟩
    · exact Or.inl (lt_max_of_lt_right h)

/-! ## The activity clock -/

@[simp] theorem beginPoll_lastActiveMs (g : GroupState) (ts : Nat) :
    (g.beginPoll ts).lastActiveMs = max g.lastActiveMs ts := by
  rw [beginPoll, expire, (sameButLeases_dropLeases g _).lastActiveMs]

@[simp] theorem advanceWatermark_lastActiveMs (g : GroupState) (upto : Offset) :
    (g.advanceWatermark upto).lastActiveMs = g.lastActiveMs := by
  rw [advanceWatermark_eq, absorbAcked_lastActiveMs, (sameButLeases_dropLeases _ _).lastActiveMs]
  rfl

@[simp] theorem ackLease_lastActiveMs (g : GroupState) (id : LeaseId) :
    (g.ackLease id).lastActiveMs = g.lastActiveMs := by
  unfold ackLease
  split
  · rfl
  · rw [markAcked_lastActiveMs, (sameButLeases_removeLease g id).lastActiveMs]

theorem le_touch_lastActiveMs (g : GroupState) (now : Option Nat) :
    g.lastActiveMs ≤ (g.touch now).lastActiveMs := by
  cases now with
  | none => exact le_rfl
  | some now => exact le_max_left ..

theorem le_stamp_lastActiveMs (g : GroupState) (now : Nat) :
    g.lastActiveMs ≤ (g.stamp now).lastActiveMs := by
  unfold stamp
  split_ifs with h
  · exact h.trans_le (Nat.zero_le _)
  · exact le_rfl

/-! ## The poll counter -/

@[simp] theorem beginPoll_pollCount (g : GroupState) (ts : Nat) :
    (g.beginPoll ts).pollCount = satAdd g.pollCount 1 := by
  rw [beginPoll, expire, (sameButLeases_dropLeases g _).pollCount]

@[simp] theorem advanceWatermark_pollCount (g : GroupState) (upto : Offset) :
    (g.advanceWatermark upto).pollCount = g.pollCount := by
  rw [advanceWatermark_eq, absorbAcked_pollCount, (sameButLeases_dropLeases _ _).pollCount]
  rfl

@[simp] theorem ackLease_pollCount (g : GroupState) (id : LeaseId) :
    (g.ackLease id).pollCount = g.pollCount := by
  unfold ackLease
  split
  · rfl
  · rw [markAcked_pollCount, (sameButLeases_removeLease g id).pollCount]

@[simp] theorem touch_pollCount (g : GroupState) (now : Option Nat) :
    (g.touch now).pollCount = g.pollCount := by
  cases now <;> rfl

@[simp] theorem stamp_pollCount (g : GroupState) (now : Nat) :
    (g.stamp now).pollCount = g.pollCount := by
  unfold stamp; split <;> rfl

/-! ## The watermark only rises -/

theorem markAcked_watermark {g : GroupState} (hw : g.ackWatermark ≤ u64Max) (a : Offset) :
    g.ackWatermark ≤ (g.markAcked a).ackWatermark ∧
      (g.markAcked a).ackWatermark ≤ u64Max := by
  unfold markAcked
  split_ifs
  · exact ⟨le_rfl, hw⟩
  · exact ⟨le_absorb hw _ _, absorb_le_max hw _ _⟩

theorem ackLease_watermark {g : GroupState} (hw : g.ackWatermark ≤ u64Max) (id : LeaseId) :
    g.ackWatermark ≤ (g.ackLease id).ackWatermark ∧
      (g.ackLease id).ackWatermark ≤ u64Max := by
  unfold ackLease
  split
  · exact ⟨le_rfl, hw⟩
  · have hs := (sameButLeases_removeLease g id).ackWatermark
    rw [← hs] at hw ⊢
    exact markAcked_watermark hw _

theorem advanceWatermark_watermark {g : GroupState} (hw : g.ackWatermark ≤ u64Max)
    {upto : Offset} (hto : upto ≤ u64Max) :
    max g.ackWatermark upto ≤ (g.advanceWatermark upto).ackWatermark ∧
      (g.advanceWatermark upto).ackWatermark ≤ u64Max := by
  have hw1 := (sameButLeases_dropLeases (g.raise (max g.ackWatermark upto))
    fun l => l.offset < max g.ackWatermark upto).ackWatermark
  have hmax := hw1.trans_le (max_le hw hto)
  rw [advanceWatermark_eq]
  exact ⟨hw1.symm.trans_le (le_absorb hmax _ _), absorb_le_max hmax _ _⟩

/-! ## The lease maps -/

theorem removeLease_inFlight (g : GroupState) (id id' : LeaseId) :
    (g.removeLease id).inFlight.get? id' =
      if id' = id then none else g.inFlight.get? id' := by
  unfold removeLease
  split
  · rename_i hnone
    split_ifs with h
    · rw [h, hnone]
    · rfl
  · exact OrdMap.get?_erase ..

theorem removeLease_leasedOffsets (g : GroupState) (id : LeaseId) (o : Offset) :
    (g.removeLease id).leasedOffsets.get? o =
      if (g.inFlight.get? id).any (·.offset = o) then none
      else g.leasedOffsets.get? o := by
  unfold removeLease
  split
  · rename_i hnone
    simp [hnone]
  · rename_i l hl
    simp [hl, eq_comm]

theorem foldl_removeLease_inFlight (ids : List LeaseId) :
    ∀ (g : GroupState) (id : LeaseId),
      (ids.foldl removeLease g).inFlight.get? id =
        if id ∈ ids then none else g.inFlight.get? id := by
  induction ids with
  | nil => intro g id; simp
  | cons i rest ih =>
      intro g id
      rw [List.foldl_cons, ih, removeLease_inFlight]
      by_cases hi : id = i <;> by_cases hr : id ∈ rest <;> simp [hi, hr]

theorem foldl_removeLease_leasedOffsets_of_kept {o : Offset} (ids : List LeaseId) :
    ∀ (g : GroupState),
      (∀ id ∈ ids, ∀ l, g.inFlight.get? id = some l → l.offset ≠ o) →
      (ids.foldl removeLease g).leasedOffsets.get? o = g.leasedOffsets.get? o := by
  induction ids with
  | nil => intro g _; rfl
  | cons i rest ih =>
      intro g h
      rw [List.foldl_cons, ih, removeLease_leasedOffsets, if_neg]
      · intro hany
        obtain ⟨l, hl, ho⟩ := (Option.any_eq_true _ _).mp hany
        exact h i (List.mem_cons_self ..) l hl (by simpa using ho)
      · intro id hid l hl
        rw [removeLease_inFlight] at hl
        split_ifs at hl
        exact h id (List.mem_cons_of_mem _ hid) l hl

theorem dropLeases_inFlight (g : GroupState) (p : Lease → Bool) (id : LeaseId) :
    (g.dropLeases p).inFlight.get? id =
      (g.inFlight.get? id).filter (fun l => !p l) := by
  rw [dropLeases, foldl_removeLease_inFlight]
  have hmem : id ∈ (g.inFlight.filter fun _ l => p l).keys ↔
      ∃ l, g.inFlight.get? id = some l ∧ p l = true := by
    simp only [OrdMap.mem_keys, OrdMap.get?_filter, Option.filter_eq_some_iff]
  cases hl : g.inFlight.get? id with
  | none => simp
  | some l =>
      rw [hl] at hmem
      by_cases hp : p l = true
      · rw [if_pos (hmem.mpr ⟨l, rfl, hp⟩), Option.filter_some, hp]
        rfl
      · rw [if_neg, Option.filter_some, eq_false_of_ne_true hp]
        · rfl
        · intro h
          obtain ⟨l', hl', hp'⟩ := hmem.mp h
          exact hp (Option.some.inj hl' ▸ hp')

theorem advanceWatermark_inFlight (g : GroupState) (upto : Offset) (id : LeaseId) :
    (g.advanceWatermark upto).inFlight.get? id =
      (g.inFlight.get? id).filter fun l => max g.ackWatermark upto ≤ l.offset := by
  rw [advanceWatermark_eq, absorbAcked_inFlight, dropLeases_inFlight]
  simp only [← decide_not, not_lt]
  rfl

theorem dropLeases_leasedOffsets_of_kept {g : GroupState} {p : Lease → Bool}
    {o : Offset}
    (h : ∀ id l, g.inFlight.get? id = some l → l.offset = o → p l = false) :
    (g.dropLeases p).leasedOffsets.get? o = g.leasedOffsets.get? o := by
  refine foldl_removeLease_leasedOffsets_of_kept _ g fun id hid l hl ho => ?_
  obtain ⟨l', hl'⟩ := OrdMap.mem_keys.mp hid
  rw [OrdMap.get?_filter, hl, Option.filter_some, h id l hl ho] at hl'
  cases hl'

/-- Every lease in flight is in the offset map, one lease an offset. -/
structure LeasesAgree (g : GroupState) : Prop where
  leased : ∀ {id l}, g.inFlight.get? id = some l →
    g.leasedOffsets.get? l.offset = some l.deadlineMs
  unique : ∀ {id id' l l'}, g.inFlight.get? id = some l →
    g.inFlight.get? id' = some l' → l.offset = l'.offset → id = id'

/-- Every leased offset has its lease in flight. -/
def LeasesBacked (g : GroupState) : Prop :=
  ∀ o d, g.leasedOffsets.get? o = some d →
    ∃ id, g.inFlight.get? id = some ⟨o, d⟩

/-- With both halves of the agreement the two maps say the same. -/
theorem LeasesAgree.leasedOffsets_eq_some {g : GroupState} (h : g.LeasesAgree)
    (hbacked : g.LeasesBacked) {o : Offset} {d : Nat} :
    g.leasedOffsets.get? o = some d ↔ ∃ id, g.inFlight.get? id = some ⟨o, d⟩ :=
  ⟨hbacked o d, fun ⟨_, hid⟩ => h.leased hid⟩

theorem LeasesAgree.of_maps {g g' : GroupState} (h : g.LeasesAgree)
    (hi : g'.inFlight = g.inFlight) (hl : g'.leasedOffsets = g.leasedOffsets) :
    g'.LeasesAgree :=
  ⟨fun {id l} h' => by rw [hi] at h'; rw [hl]; exact h.leased h',
   fun {id id' l l'} h₁ h₂ => by rw [hi] at h₁ h₂; exact h.unique h₁ h₂⟩

theorem LeasesBacked.of_maps {g g' : GroupState} (h : g.LeasesBacked)
    (hi : g'.inFlight = g.inFlight) (hl : g'.leasedOffsets = g.leasedOffsets) :
    g'.LeasesBacked := fun o d h' => by
  rw [hl] at h'; rw [hi]; exact h o d h'

theorem LeasesAgree.removeLease {g : GroupState} (h : g.LeasesAgree)
    (id : LeaseId) : (g.removeLease id).LeasesAgree := by
  constructor
  · intro i l hi
    rw [removeLease_inFlight] at hi
    split_ifs at hi with hne
    rw [removeLease_leasedOffsets, if_neg]
    · exact h.leased hi
    · intro hany
      obtain ⟨l', hl', ho⟩ := (Option.any_eq_true _ _).mp hany
      exact hne (h.unique hi hl' (by simpa using (of_decide_eq_true ho).symm))
  · intro i i' l l' hi hi'
    rw [removeLease_inFlight] at hi hi'
    split_ifs at hi hi'
    exact h.unique hi hi'

theorem LeasesBacked.removeLease {g : GroupState} (h : g.LeasesBacked)
    (id : LeaseId) : (g.removeLease id).LeasesBacked := by
  intro o d hd
  rw [removeLease_leasedOffsets] at hd
  split_ifs at hd with hany
  obtain ⟨i, hi⟩ := h o d hd
  refine ⟨i, ?_⟩
  rw [removeLease_inFlight, if_neg]
  · exact hi
  · rintro rfl
    exact hany (by simp [hi])

theorem LeasesAgree.dropLeases {g : GroupState} (h : g.LeasesAgree)
    (p : Lease → Bool) : (g.dropLeases p).LeasesAgree :=
  List.foldlRecOn _ _ h fun _ hb id _ => hb.removeLease id

theorem LeasesBacked.dropLeases {g : GroupState} (h : g.LeasesBacked)
    (p : Lease → Bool) : (g.dropLeases p).LeasesBacked :=
  List.foldlRecOn (motive := LeasesBacked) _ _ h
    fun _ hb id _ => LeasesBacked.removeLease hb id

/-- Dropping leases drops them from the offset map too. -/
theorem LeasesAgree.dropLeases_leasedOffsets {g : GroupState} (h : g.LeasesAgree)
    (hbacked : g.LeasesBacked) (p : Lease → Bool) (o : Offset) :
    (g.dropLeases p).leasedOffsets.get? o =
      (g.leasedOffsets.get? o).filter fun d => !p ⟨o, d⟩ := by
  ext d
  rw [(h.dropLeases p).leasedOffsets_eq_some (LeasesBacked.dropLeases hbacked p),
    Option.filter_eq_some_iff, h.leasedOffsets_eq_some hbacked]
  simp only [dropLeases_inFlight, Option.filter_eq_some_iff, exists_and_right]

theorem LeasesAgree.advanceWatermark_leasedOffsets {g : GroupState} (h : g.LeasesAgree)
    (hbacked : g.LeasesBacked) (upto o : Offset) :
    (g.advanceWatermark upto).leasedOffsets.get? o =
      (g.leasedOffsets.get? o).filter fun _ => max g.ackWatermark upto ≤ o := by
  have hraise : (g.raise (max g.ackWatermark upto)).LeasesAgree := h.of_maps rfl rfl
  rw [advanceWatermark_eq, absorbAcked_leasedOffsets,
    hraise.dropLeases_leasedOffsets (hbacked.of_maps rfl rfl)]
  simp only [← decide_not, not_lt]
  rfl

theorem LeasesAgree.takeLease {g : GroupState} (h : g.LeasesAgree)
    {id : LeaseId} {o : Offset} (d : Nat) (ho : g.leasedOffsets.get? o = none) :
    (g.takeLease id o d).LeasesAgree := by
  have hfree : ∀ {i l}, g.inFlight.get? i = some l → l.offset ≠ o := by
    rintro i l hi rfl
    rw [h.leased hi] at ho
    cases ho
  constructor
  · intro i l hi
    simp only [GroupState.takeLease, OrdMap.get?_insert] at hi ⊢
    split_ifs at hi with hid
    · obtain rfl := Option.some.inj hi
      simp
    · rw [if_neg (hfree hi)]
      exact h.leased hi
  · intro i i' l l' hi hi' hoff
    simp only [GroupState.takeLease, OrdMap.get?_insert] at hi hi'
    split_ifs at hi hi' with hid hid' hid'
    · rw [hid, hid']
    · obtain rfl := Option.some.inj hi
      exact absurd hoff.symm (hfree hi')
    · obtain rfl := Option.some.inj hi'
      exact absurd hoff (hfree hi)
    · exact h.unique hi hi' hoff

theorem LeasesBacked.takeLease {g : GroupState} (h : g.LeasesBacked)
    {id : LeaseId} (o : Offset) (d : Nat) (hid : g.inFlight.get? id = none) :
    (g.takeLease id o d).LeasesBacked := by
  intro o' d' hd
  simp only [GroupState.takeLease, OrdMap.get?_insert] at hd ⊢
  split_ifs at hd with ho
  · obtain rfl := Option.some.inj hd
    exact ⟨id, by simp [ho]⟩
  · obtain ⟨i, hi⟩ := h o' d' hd
    refine ⟨i, ?_⟩
    rw [if_neg, hi]
    rintro rfl
    rw [hid] at hi
    cases hi

theorem LeasesAgree.ackLease {g : GroupState} (h : g.LeasesAgree)
    (id : LeaseId) : (g.ackLease id).LeasesAgree := by
  unfold GroupState.ackLease
  split
  · exact h
  · exact (h.removeLease id).of_maps (markAcked_inFlight ..) (markAcked_leasedOffsets ..)

theorem LeasesAgree.advanceWatermark {g : GroupState} (h : g.LeasesAgree)
    (upto : Offset) : (g.advanceWatermark upto).LeasesAgree := by
  have hraise : (g.raise (max g.ackWatermark upto)).LeasesAgree := h.of_maps rfl rfl
  rw [advanceWatermark_eq]
  exact (hraise.dropLeases _).of_maps rfl rfl

end GroupState

end HermesMq
