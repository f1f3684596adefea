import HermesMq.Group

/-!
# The done set of a group

A group is a set of done offsets, in canonical form, with leases on other
offsets. `Canonical` is the invariant. Most of it is checked by `validate`;
that no leased offset is acked is not, and it is what makes
`advance_watermark` right: the function drops the leases below the watermark
as it is before the loop that absorbs acked offsets moves it on.

`mark_acked` and `advance_watermark` add offsets to the set, and to the rest
of the group they do what follows from that (`Finishes`).
-/

namespace HermesMq

namespace GroupState

/-- The offsets the group is done with. -/
def doneSet (g : GroupState) : Set Offset := Watermark.denote g.ackWatermark g.ackedAbove

/-- The leases of a group, next to its done set: no leased offset is done,
and the two maps are one assignment of leases to offsets. All offsets are
below `b`. -/
structure LeasesClear (b : Offset) (g : GroupState) : Prop where
  leased_ge : ∀ {o d}, g.leasedOffsets.get? o = some d → g.ackWatermark ≤ o
  unacked : ∀ {o d}, g.leasedOffsets.get? o = some d → o ∉ g.ackedAbove
  agree : g.LeasesAgree
  backed : g.LeasesBacked
  done_lt : g.doneSet ⊆ Set.Iio b
  leased_lt : ∀ {o d}, g.leasedOffsets.get? o = some d → o < b

/-- Besides, the acked offsets are strictly above the watermark. -/
structure Canonical (b : Offset) (g : GroupState) : Prop extends LeasesClear b g where
  acked_gt : ∀ o ∈ g.ackedAbove, g.ackWatermark < o

variable {b : Offset} {g g' : GroupState}

theorem LeasesClear.not_done (h : g.LeasesClear b) {o : Offset} {d : Nat}
    (hd : g.leasedOffsets.get? o = some d) : o ∉ g.doneSet := by
  rintro (hlt | hmem)
  · exact not_lt.mpr (h.leased_ge hd) hlt
  · exact h.unacked hd hmem

/-! ## The invariant is kept -/

/-- Absorbing stops below every leased offset, as none is acked. -/
theorem LeasesClear.absorbAcked (h : g.LeasesClear b)
    (hacked : ∀ o ∈ g.ackedAbove, g.ackWatermark ≤ o) : g.absorbAcked.Canonical b := by
  obtain ⟨hw, hlt⟩ := Watermark.denote_subset_Iio.mp h.done_lt
  have hsub : ∀ o ∈ g.absorbAcked.ackedAbove, o ∈ g.ackedAbove := fun o ho =>
    absorb_subset _ _ _ ho
  constructor
  · constructor
    · intro o d hd
      exact absorb_le_of_not_mem (h.leased_ge hd) (h.unacked hd)
    · intro o d hd ho
      exact h.unacked hd (hsub o ho)
    · exact h.agree.of_maps rfl rfl
    · exact LeasesBacked.of_maps h.backed rfl rfl
    · refine Watermark.denote_subset_Iio.mpr ⟨absorb_le_of_bound hw hlt, ?_⟩
      intro o ho
      exact hlt o (hsub o ho)
    · exact h.leased_lt
  · exact absorb_gt le_rfl hacked

theorem Canonical.markAcked (h : g.Canonical b) {a : Offset} (ha : a < b)
    (hfree : g.leasedOffsets.get? a = none) : (g.markAcked a).Canonical b := by
  obtain ⟨hw, hlt⟩ := Watermark.denote_subset_Iio.mp h.done_lt
  unfold GroupState.markAcked
  split_ifs with hbelow
  · exact h
  · refine LeasesClear.absorbAcked ⟨h.leased_ge, ?_, h.agree.of_maps rfl rfl,
      LeasesBacked.of_maps h.backed rfl rfl, ?_, h.leased_lt⟩ ?_
    · intro o d hd ho
      rcases Finset.mem_insert.mp ho with rfl | ho
      · rw [show _ = none from hfree] at hd
        cases hd
      · exact h.unacked hd ho
    · refine Watermark.denote_subset_Iio.mpr ⟨hw, ?_⟩
      intro o ho
      rcases Finset.mem_insert.mp ho with rfl | ho
      · exact ha
      · exact hlt o ho
    · intro o ho
      rcases Finset.mem_insert.mp ho with rfl | ho
      · exact not_lt.mp hbelow
      · exact (h.acked_gt o ho).le

theorem Canonical.advanceWatermark (h : g.Canonical b) {upto : Offset} (hupto : upto ≤ b) :
    (g.advanceWatermark upto).Canonical b := by
  obtain ⟨hw, hlt⟩ := Watermark.denote_subset_Iio.mp h.done_lt
  have hs := sameButLeases_dropLeases (g.raise (max g.ackWatermark upto))
    fun l => l.offset < max g.ackWatermark upto
  have hagree : (g.raise (max g.ackWatermark upto)).LeasesAgree := h.agree.of_maps rfl rfl
  have hbacked : (g.raise (max g.ackWatermark upto)).LeasesBacked :=
    LeasesBacked.of_maps h.backed rfl rfl
  -- a lease that is kept is at or above the raised watermark
  have hkept : ∀ {o d}, ((g.raise (max g.ackWatermark upto)).dropLeases
      fun l => l.offset < max g.ackWatermark upto).leasedOffsets.get? o = some d →
      g.leasedOffsets.get? o = some d ∧ max g.ackWatermark upto ≤ o := by
    intro o d hd
    rw [hagree.dropLeases_leasedOffsets hbacked, Option.filter_eq_some_iff] at hd
    exact ⟨hd.1, by simpa using hd.2⟩
  rw [advanceWatermark_eq]
  refine LeasesClear.absorbAcked ⟨?_, ?_, hagree.dropLeases _, LeasesBacked.dropLeases hbacked _,
    ?_, fun hd => h.leased_lt (hkept hd).1⟩ ?_
  · intro o d hd
    rw [hs.ackWatermark]
    exact (hkept hd).2
  · intro o d hd ho
    rw [hs.ackedAbove] at ho
    exact h.unacked (hkept hd).1 (Finset.mem_filter.mp ho).1
  · rw [doneSet, hs.ackWatermark, hs.ackedAbove]
    refine Watermark.denote_subset_Iio.mpr ⟨max_le hw hupto, ?_⟩
    intro o ho
    exact hlt o (Finset.mem_filter.mp ho).1
  · rw [hs.ackWatermark, hs.ackedAbove]
    intro o ho
    exact (Finset.mem_filter.mp ho).2

/-! ## What the operations do -/

/-- `g'` is `g` with the offsets `new` done as well: the watermark is the
least offset not done, and exactly the leases on offsets that became done
are gone. -/
structure Finishes (b : Offset) (new : Set Offset) (g g' : GroupState) : Prop where
  done : g'.doneSet = g.doneSet ∪ new
  watermark : IsLeast g'.doneSetᶜ g'.ackWatermark
  inFlight : ∀ id l, g'.inFlight.get? id = some l ↔
    g.inFlight.get? id = some l ∧ l.offset ∉ g'.doneSet \ g.doneSet
  leasedOffsets : ∀ o d, g'.leasedOffsets.get? o = some d ↔
    g.leasedOffsets.get? o = some d ∧ o ∉ g'.doneSet \ g.doneSet
  canonical : g'.Canonical b

/-- The map by offset follows the map by id. -/
theorem Finishes.of_inFlight {new : Set Offset} (h : g.Canonical b) (h' : g'.Canonical b)
    (hdone : g'.doneSet = g.doneSet ∪ new)
    (hleases : ∀ id l, g'.inFlight.get? id = some l ↔
      g.inFlight.get? id = some l ∧ l.offset ∉ new) : Finishes b new g g' := by
  -- a leased offset was not done, so it is done now only as a new one
  have hnew : ∀ {o d}, g.leasedOffsets.get? o = some d →
      (o ∉ new ↔ o ∉ g'.doneSet \ g.doneSet) := by
    intro o d hd
    have hnot := h.not_done hd
    rw [hdone, not_iff_not]
    constructor
    · intro ho
      exact ⟨Or.inr ho, hnot⟩
    · rintro ⟨hold | ho, -⟩
      · exact absurd hold hnot
      · exact ho
  refine ⟨hdone, Watermark.Canonical.isLeast h'.acked_gt, ?_, ?_, h'⟩
  · intro id l
    rw [hleases]
    exact and_congr_right fun hl => hnew (h.agree.leased hl)
  · intro o d
    rw [h'.agree.leasedOffsets_eq_some h'.backed, h.agree.leasedOffsets_eq_some h.backed]
    simp only [hleases, exists_and_right]
    exact and_congr_right fun ⟨_, hl⟩ => hnew (h.agree.leased hl)

/-- Sets of offsets below a bound are equal if they are so up to there. -/
theorem doneSet_eq {D : Set Offset} (h : g.doneSet ⊆ Set.Iio b) (hD : D ⊆ Set.Iio b)
    (heq : ∀ o < b, o ∈ g.doneSet ↔ o ∈ D) : g.doneSet = D := by
  ext o
  constructor
  · intro ho
    exact (heq o (h ho)).mp ho
  · intro ho
    exact (heq o (hD ho)).mpr ho

theorem Canonical.markAcked_finishes (hb : b ≤ u64Max) (h : g.Canonical b) {a : Offset}
    (ha : a < b) (hfree : g.leasedOffsets.get? a = none) :
    Finishes b {a} g (g.markAcked a) := by
  have h' := h.markAcked ha hfree
  have hw : g.ackWatermark ≤ u64Max := (Watermark.denote_subset_Iio.mp h.done_lt).1.trans hb
  refine .of_inFlight h h' (doneSet_eq h'.done_lt (Set.union_subset h.done_lt ?_) ?_) ?_
  · rintro o rfl
    exact ha
  · intro o ho
    exact markAcked_done hw a (ho.trans_le hb)
  · intro id l
    rw [markAcked_inFlight]
    refine ⟨fun hl => ⟨hl, ?_⟩, And.left⟩
    rintro rfl
    rw [h.agree.leased hl] at hfree
    cases hfree

theorem Canonical.advanceWatermark_finishes (hb : b ≤ u64Max) (h : g.Canonical b) {upto : Offset}
    (hupto : upto ≤ b) : Finishes b (Set.Iio upto) g (g.advanceWatermark upto) := by
  have h' := h.advanceWatermark hupto
  have hw : g.ackWatermark ≤ u64Max := (Watermark.denote_subset_Iio.mp h.done_lt).1.trans hb
  refine .of_inFlight h h' (doneSet_eq h'.done_lt (Set.union_subset h.done_lt ?_) ?_) ?_
  · exact Set.Iio_subset_Iio hupto
  · intro o ho
    exact advanceWatermark_done hw (hupto.trans hb) (ho.trans_le hb)
  · intro id l
    rw [advanceWatermark_inFlight, Option.filter_eq_some_iff]
    refine and_congr_right fun hl => ?_
    have hge : g.ackWatermark ≤ l.offset := h.leased_ge (h.agree.leased hl)
    simp [hge]

end GroupState

open GroupState

/-- A group is a set of done offsets in canonical form: of the groups with
that set and that invariant, all have its watermark and acked offsets.
Marking an offset acked adds it to the set, advancing the watermark adds
what is below; both drop the leases on what they add, and no others, and
keep the invariant. The loop both end with comes to its end after at most as
many rounds as there are acked offsets. -/
theorem group_implements_done_set {b : Offset} (hb : b ≤ u64Max) {g : GroupState}
    (h : g.Canonical b) :
    (∀ o < b, g.leasedOffsets.get? o = none → Finishes b {o} g (g.markAcked o)) ∧
    (∀ upto ≤ b, Finishes b (Set.Iio upto) g (g.advanceWatermark upto)) ∧
    (∀ (fuel : Nat) (w : Offset) (s : Finset Offset), s.card ≤ fuel →
      absorb fuel w s = absorb s.card w s ∧ (absorb fuel w s).1 ∉ (absorb fuel w s).2) ∧
    ∀ g' : GroupState, g'.Canonical b → g'.doneSet = g.doneSet →
      g'.ackWatermark = g.ackWatermark ∧ g'.ackedAbove = g.ackedAbove := by
  refine ⟨fun o ho hfree => h.markAcked_finishes hb ho hfree,
    fun upto hupto => h.advanceWatermark_finishes hb hupto, ?_, ?_⟩
  · intro fuel w s hfuel
    exact ⟨absorb_enough hfuel, absorb_not_mem hfuel⟩
  · intro g' h' heq
    exact Watermark.Canonical.eq_of_denote h'.acked_gt h.acked_gt heq

/-- Offsets 0, 1 and 4 are done, 3 is leased. -/
def oneLeased : GroupState where
  ackWatermark := 2
  ackedAbove := {4}
  inFlight := .ofList [(0, ⟨3, 10⟩)]
  leasedOffsets := .ofList [(3, 10)]

theorem oneLeased_canonical : oneLeased.Canonical (2 ^ 63) := by
  have hleased : ∀ {o d}, oneLeased.leasedOffsets.get? o = some d → o = 3 ∧ d = 10 := by
    intro o d hd
    have hmem : (o, d) ∈ [(3, 10)] := OrdMap.get?_eq_some.mp hd
    simpa using hmem
  have hflight : ∀ {id l}, oneLeased.inFlight.get? id = some l → id = 0 ∧ l = ⟨3, 10⟩ := by
    intro id l hl
    have hmem : (id, l) ∈ [(0, (⟨3, 10⟩ : Lease))] := OrdMap.get?_eq_some.mp hl
    simpa using hmem
  refine ⟨⟨?_, ?_, ⟨?_, ?_⟩, ?_, ?_, ?_⟩, ?_⟩
  · intro o d hd
    obtain ⟨rfl, -⟩ := hleased hd
    decide
  · intro o d hd
    obtain ⟨rfl, -⟩ := hleased hd
    decide
  · intro id l hl
    obtain ⟨rfl, rfl⟩ := hflight hl
    rfl
  · intro id id' l l' hl hl' _
    rw [(hflight hl).1, (hflight hl').1]
  · intro o d hd
    obtain ⟨rfl, rfl⟩ := hleased hd
    exact ⟨0, rfl⟩
  · exact Watermark.denote_subset_Iio.mpr (by decide)
  · intro o d hd
    obtain ⟨rfl, -⟩ := hleased hd
    decide
  · decide

/-- Advancing to 4 drops the lease and takes the acked offset along. -/
theorem group_implements_done_set_advanced :
    (oneLeased.advanceWatermark 4).ackWatermark = 5 ∧
      (oneLeased.advanceWatermark 4).inFlight = ∅ ∧
      (oneLeased.advanceWatermark 4).doneSet = oneLeased.doneSet ∪ Set.Iio 4 ∧
      (oneLeased.markAcked 2).doneSet = oneLeased.doneSet ∪ {2} := by
  obtain ⟨hmark, hadvance, -⟩ := group_implements_done_set (by decide) oneLeased_canonical
  exact ⟨by decide, by decide, (hadvance 4 (by decide)).done, (hmark 2 (by decide) rfl).done⟩

end HermesMq
