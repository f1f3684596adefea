import HermesMq.Topic

/-!
# What the topic operations do

One specification per function of `HermesMq.Topic`, so that nothing later
unfolds them:

- retention and reclaiming both *cut* the message log from below
  (`Cut`), the first at `purgeBoundary`, the second at the lowest
  watermark;
- the sweep and the group collector only drop whole groups, and the
  sweep stamps the ones it keeps;
- a poll chooses distinct deliverable offsets (`mem_choose`,
  `choose_nodup`) and leases them under consecutive ids.
-/

namespace HermesMq

/-! ## Replacing one group -/

theorem putGroup_groups (t : TopicState) (group γ : GroupId) (g : GroupState) :
    (putGroup t group g).groups.get? γ =
      if γ = group then some g else t.groups.get? γ :=
  OrdMap.get?_insert ..

@[simp] theorem putGroup_putGroup (t : TopicState) (group : GroupId)
    (g g' : GroupState) : putGroup (putGroup t group g) group g' = putGroup t group g' := by
  unfold putGroup
  congr 1
  refine OrdMap.ext_get? fun γ => ?_
  simp only [OrdMap.get?_insert]
  split_ifs <;> rfl

theorem putGroup_self {t : TopicState} {group : GroupId} {g : GroupState}
    (h : t.groups.get? group = some g) : putGroup t group g = t := by
  have hg : t.groups.insert group g = t.groups := by
    refine OrdMap.ext_get? fun γ => ?_
    rw [OrdMap.get?_insert]
    split_ifs with hγ
    · rw [hγ, h]
    · rfl
  unfold putGroup
  rw [hg]

theorem updateGroup_of_some {t : TopicState} {group : GroupId} {g : GroupState}
    (h : t.groups.get? group = some g) (f : GroupState → GroupState) :
    updateGroup t group f = putGroup t group (f g) := by
  rw [updateGroup, h]

@[simp] theorem updateGroup_putGroup (t : TopicState) (group : GroupId)
    (g : GroupState) (f : GroupState → GroupState) :
    updateGroup (putGroup t group g) group f = putGroup t group (f g) := by
  rw [updateGroup_of_some (g := g) (by simp [putGroup]), putGroup_putGroup]

theorem updateGroup_eq (t : TopicState) (group : GroupId) (f : GroupState → GroupState) :
    updateGroup t group f = { t with groups := t.groups.modify group f } := by
  unfold updateGroup OrdMap.modify
  cases t.groups.get? group <;> rfl

theorem updateGroup_group (t : TopicState) (group γ : GroupId)
    (f : GroupState → GroupState) :
    (updateGroup t group f).groups.get? γ =
      (t.groups.get? γ).map fun g => if γ = group then f g else g := by
  rw [updateGroup_eq]
  exact OrdMap.get?_modify ..

/-- Updates of one group along a list are one update. -/
theorem foldl_updateGroup {α : Type} (t : TopicState) (group : GroupId)
    (f : α → GroupState → GroupState) (l : List α) :
    l.foldl (fun t a => updateGroup t group (f a)) t =
      updateGroup t group fun g => l.foldl (fun g a => f a g) g := by
  induction l generalizing t with
  | nil =>
      rw [updateGroup_eq]
      exact congrArg (fun groups => { t with groups }) (OrdMap.modify_id t.groups group).symm
  | cons a rest ih =>
      rw [List.foldl_cons, ih]
      simp only [updateGroup_eq, OrdMap.modify_modify, List.foldl_cons]

@[simp] theorem updateGroup_messages (t : TopicState) (group : GroupId)
    (f : GroupState → GroupState) : (updateGroup t group f).messages = t.messages := by
  unfold updateGroup; split <;> rfl

@[simp] theorem updateGroup_nextOffset (t : TopicState) (group : GroupId)
    (f : GroupState → GroupState) :
    (updateGroup t group f).nextOffset = t.nextOffset := by
  unfold updateGroup; split <;> rfl

/-! ## Cutting the log from below -/

/-- `messages'` is `messages` with what lies below `boundary` removed. The
offset `next` itself, where a saturated counter parks, may go as well. -/
structure Cut (next boundary : Offset) (messages messages' : OrdMap Offset Message) :
    Prop where
  sub : ∀ {o m}, messages'.get? o = some m → messages.get? o = some m ∧ boundary ≤ o
  keep : ∀ {o m}, messages.get? o = some m → boundary ≤ o → o < next →
    messages'.get? o = some m

theorem first_le_of_get {t : TopicState} {o : Offset} {m : Message}
    (h : t.messages.get? o = some m) : t.first ≤ o := by
  unfold TopicState.first
  cases hf : t.messages.firstKey? with
  | none => rw [OrdMap.firstKey?_eq_none.mp hf o] at h; cases h
  | some k => exact (OrdMap.firstKey?_eq_some.mp hf).2 o m h

/-- Either something is retained at `first`, or nothing is retained. -/
theorem first_cases (t : TopicState) :
    (∃ m, t.messages.get? t.first = some m) ∨
      (t.first = t.nextOffset ∧ ∀ o, t.messages.get? o = none) := by
  unfold TopicState.first
  cases hf : t.messages.firstKey? with
  | none => exact Or.inr ⟨rfl, OrdMap.firstKey?_eq_none.mp hf⟩
  | some k => exact Or.inl (OrdMap.firstKey?_eq_some.mp hf).1

theorem first_congr {t t' : TopicState} (hm : t'.messages = t.messages)
    (hn : t'.nextOffset = t.nextOffset) : t'.first = t.first := by
  unfold TopicState.first
  rw [hm, hn]

/-! ## Retention -/

/-- The number of leading messages too old for the topic's retention. -/
def agedCount (t : TopicState) (now : Nat) : Nat :=
  if (effectiveRetention t).2 > 0 then
    (t.messages.entries.takeWhile fun e => now - e.2.tsMs > (effectiveRetention t).2).length
  else 0

/-- The number of messages a retention pass removes. -/
def purgeCount (t : TopicState) (now : Nat) : Nat :=
  max (agedCount t now)
    (if (effectiveRetention t).1 > 0 then t.messages.size - (effectiveRetention t).1 else 0)

theorem agedOffsets_eq (now age : Nat) (l : List (Offset × Message)) :
    agedOffsets now age l =
      ((l.map Prod.fst).take
        (l.takeWhile fun e => now - e.2.tsMs > age).length).toFinset := by
  induction l with
  | nil => rfl
  | cons e rest ih =>
      rw [agedOffsets, List.takeWhile_cons]
      by_cases hold : now - e.2.tsMs > age
      · simp [hold, ih]
      · simp [hold]

/-- Purging the lowest `n` on top of the lowest `a` purges the lowest `a + n`. -/
theorem purgeLowest_take {l : List Offset} (hl : l.Nodup) (a n : Nat) (s : Finset Offset)
    (hs : ∀ x ∈ l, x ∉ s) :
    purgeLowest n l (s ∪ (l.take a).toFinset) = s ∪ (l.take (a + n)).toFinset := by
  induction l generalizing a n s with
  | nil => simp [purgeLowest]
  | cons x rest ih =>
      obtain ⟨hx, hrest⟩ := List.nodup_cons.mp hl
      have hfree : ∀ y ∈ rest, y ∉ insert x s := fun y hy hmem =>
        (Finset.mem_insert.mp hmem).elim (fun heq => hx (heq ▸ hy))
          (hs y (List.mem_cons_of_mem _ hy))
      cases n with
      | zero => rfl
      | succ n =>
          cases a with
          | zero =>
              have hstep := ih hrest 0 n (insert x s) hfree
              rw [purgeLowest, if_neg (by simpa using hs x List.mem_cons_self)]
              simpa [Finset.insert_union, Finset.union_insert] using hstep
          | succ a =>
              have hstep := ih hrest a (n + 1) (insert x s) hfree
              rw [purgeLowest, if_pos (by simp), Nat.succ_add]
              simpa [Finset.insert_union, Finset.union_insert] using hstep

theorem agedCount_le (t : TopicState) (now : Nat) : agedCount t now ≤ t.messages.size := by
  unfold agedCount
  split_ifs
  · exact (List.takeWhile_sublist _).length_le
  · exact Nat.zero_le _

/-- A retention pass purges the lowest offsets. -/
theorem purgeSet_eq (t : TopicState) (now : Nat) :
    purgeSet t now = (t.messages.keys.take (purgeCount t now)).toFinset := by
  have haged : (if (effectiveRetention t).2 > 0 then
      agedOffsets now (effectiveRetention t).2 t.messages.entries else ∅) =
        (t.messages.keys.take (agedCount t now)).toFinset := by
    unfold agedCount
    split_ifs
    · exact agedOffsets_eq ..
    · rfl
  have hcard : (t.messages.keys.take (agedCount t now)).toFinset.card = agedCount t now := by
    rw [List.toFinset_card_of_nodup (t.messages.keys_nodup.sublist (List.take_sublist ..)),
      List.length_take, OrdMap.length_keys, min_eq_left (agedCount_le t now)]
  have hle := agedCount_le t now
  simp only [purgeSet, haged, hcard, purgeCount]
  split_ifs with hcap hover
  · have hlow := purgeLowest_take t.messages.keys_nodup (agedCount t now)
      (t.messages.size - agedCount t now - (effectiveRetention t).1) ∅ (by simp)
    rw [Finset.empty_union, Finset.empty_union] at hlow
    rw [hlow, max_eq_right (by omega)]
    congr 3
    omega
  · rw [max_eq_left (by omega)]
  · rw [max_eq_left (Nat.zero_le _)]

theorem purgeSet_initial (t : TopicState) (now : Nat) :
    ∀ x ∈ t.messages.keys, ∀ o ∈ purgeSet t now, x ≤ o → x ∈ purgeSet t now := by
  rw [purgeSet_eq]
  intro x hx o ho hle
  rw [List.mem_toFinset] at ho ⊢
  have hsorted := t.messages.keys_sorted
  rw [← List.take_append_drop (purgeCount t now) t.messages.keys] at hx hsorted
  rcases List.mem_append.mp hx with hlow | hhigh
  · exact hlow
  · exact absurd ((List.pairwise_append.mp hsorted).2.2 o ho x hhigh) (not_lt.mpr hle)

/-- The lowest offset left by a retention pass. -/
def purgeBoundary (t : TopicState) (now : Nat) : Offset :=
  (purgeRetained t now).first

@[simp] theorem pruneDedup_messages (t : TopicState) (b : Offset) :
    (pruneDedup t b).messages = t.messages := rfl

@[simp] theorem pruneDedup_nextOffset (t : TopicState) (b : Offset) :
    (pruneDedup t b).nextOffset = t.nextOffset := rfl

@[simp] theorem pruneDedup_groups (t : TopicState) (b : Offset) :
    (pruneDedup t b).groups = t.groups := rfl

theorem evictDedup_sub {order : List DedupKey} {dedup : OrdMap DedupKey Offset} {key : DedupKey}
    {o : Offset} (h : (evictDedup order dedup).2.get? key = some o) : dedup.get? key = some o := by
  induction order generalizing dedup with
  | nil => exact h
  | cons k rest ih =>
      rw [evictDedup] at h
      split_ifs at h
      · have hrest := ih h
        rw [OrdMap.get?_erase] at hrest
        split_ifs at hrest
        exact hrest
      · exact h

theorem purgeRetained_of_empty {t : TopicState} {now : Nat} (h : purgeSet t now = ∅) :
    purgeRetained t now = t := by
  simp only [purgeRetained, if_pos h]

theorem purgeRetained_messages (t : TopicState) (now : Nat) :
    (purgeRetained t now).messages =
      t.messages.filter fun offset _ => offset ∉ purgeSet t now := by
  by_cases h : purgeSet t now = ∅
  · rw [purgeRetained_of_empty h, h]
    refine OrdMap.ext_get? fun o => ?_
    rw [OrdMap.get?_filter]
    cases t.messages.get? o <;> simp [Option.filter_some]
  · simp only [purgeRetained, if_neg h, pruneDedup_messages]

@[simp] theorem purgeRetained_nextOffset (t : TopicState) (now : Nat) :
    (purgeRetained t now).nextOffset = t.nextOffset := by
  by_cases h : purgeSet t now = ∅
  · rw [purgeRetained_of_empty h]
  · simp only [purgeRetained, if_neg h, pruneDedup_nextOffset]

/-- The boundary is the first message that is not purged. -/
theorem purgeBoundary_eq (t : TopicState) (now : Nat) :
    purgeBoundary t now = TopicState.first { t with
      messages := t.messages.filter fun offset _ => offset ∉ purgeSet t now } :=
  first_congr (purgeRetained_messages t now) (purgeRetained_nextOffset t now)

theorem purgeRetained_groups {t : TopicState} {now : Nat} (h : purgeSet t now ≠ ∅) :
    (purgeRetained t now).groups = t.groups.mapVals fun _ g =>
      if purgeBoundary t now > g.ackWatermark then
        g.advanceWatermark (purgeBoundary t now) else g := by
  rw [purgeBoundary_eq]
  simp only [purgeRetained, if_neg h, pruneDedup_groups]

theorem purgeRetained_dedup {t : TopicState} {now : Nat} (h : purgeSet t now ≠ ∅) :
    ((purgeRetained t now).dedupOrder, (purgeRetained t now).dedup) =
      pruneDedupLoop (purgeBoundary t now) t.dedupOrder t.dedup := by
  rw [purgeBoundary_eq]
  simp only [purgeRetained, if_neg h]
  rfl

theorem purgeRetained_cut (t : TopicState) (now : Nat) :
    Cut t.nextOffset (purgeBoundary t now) t.messages (purgeRetained t now).messages := by
  have hget : ∀ o m, (purgeRetained t now).messages.get? o = some m ↔
      t.messages.get? o = some m ∧ o ∉ purgeSet t now := fun o m => by
    rw [purgeRetained_messages, OrdMap.get?_filter, Option.filter_eq_some_iff]
    simp
  constructor
  · intro o m h
    exact ⟨((hget o m).mp h).1, first_le_of_get h⟩
  · intro o m h hle hlt
    refine (hget o m).mpr ⟨h, fun hmem => ?_⟩
    -- the boundary is retained and below `o`, so it would be purged too
    rcases first_cases (purgeRetained t now) with ⟨m', hm'⟩ | ⟨hfirst, -⟩
    · obtain ⟨hin, hnot⟩ := (hget _ m').mp hm'
      exact hnot (purgeSet_initial t now _ (OrdMap.mem_keys.mpr ⟨m', hin⟩) o hmem hle)
    · have hb : purgeBoundary t now = t.nextOffset := by
        rw [purgeBoundary, hfirst, purgeRetained_nextOffset]
      exact absurd hlt (not_lt.mpr (hb ▸ hle))

/-! ## Reclaiming -/

@[simp] theorem gcIdleGroups_messages (t : TopicState) :
    (gcIdleGroups t).messages = t.messages := by
  unfold gcIdleGroups; split <;> rfl

@[simp] theorem gcIdleGroups_nextOffset (t : TopicState) :
    (gcIdleGroups t).nextOffset = t.nextOffset := by
  unfold gcIdleGroups; split <;> rfl

theorem gcIdleGroups_sub {t : TopicState} {γ : GroupId} {g : GroupState}
    (h : (gcIdleGroups t).groups.get? γ = some g) : t.groups.get? γ = some g := by
  unfold gcIdleGroups at h
  split at h
  · exact h
  · rw [OrdMap.get?_filter] at h
    exact (Option.filter_eq_some_iff.mp h).1

theorem gcIdleGroups_of_small {t : TopicState} (h : t.groups.size ≤ groupGcThreshold) :
    gcIdleGroups t = t := by
  rw [gcIdleGroups, if_pos (Or.inl h)]

@[simp] theorem reclaimMessages_groups (t : TopicState) :
    (reclaimMessages t).groups = t.groups := by
  unfold reclaimMessages; split
  · rfl
  · split <;> rfl

@[simp] theorem reclaimMessages_nextOffset (t : TopicState) :
    (reclaimMessages t).nextOffset = t.nextOffset := by
  unfold reclaimMessages; split
  · rfl
  · split <;> rfl

theorem reclaim_sub {t : TopicState} {γ : GroupId} {g : GroupState}
    (h : (reclaim t).groups.get? γ = some g) : t.groups.get? γ = some g := by
  have := gcIdleGroups_sub h
  rwa [reclaimMessages_groups] at this

theorem reclaim_groups_of_small {t : TopicState} (h : t.groups.size ≤ groupGcThreshold) :
    (reclaim t).groups = t.groups := by
  rw [reclaim, gcIdleGroups_of_small (by rwa [reclaimMessages_groups]), reclaimMessages_groups]

@[simp] theorem reclaim_nextOffset (t : TopicState) :
    (reclaim t).nextOffset = t.nextOffset := by
  rw [reclaim, gcIdleGroups_nextOffset, reclaimMessages_nextOffset]

/-- Reclaiming cuts the log at an offset no group's watermark is below. -/
theorem reclaim_cut (t : TopicState) :
    ∃ boundary, Cut t.nextOffset boundary t.messages (reclaim t).messages ∧
      ∀ γ g, t.groups.get? γ = some g → boundary ≤ g.ackWatermark := by
  have htriv : Cut t.nextOffset 0 t.messages t.messages :=
    ⟨fun h => ⟨h, Nat.zero_le _⟩, fun h _ _ => h⟩
  rw [reclaim, gcIdleGroups_messages]
  unfold reclaimMessages
  split
  · exact ⟨0, htriv, fun _ _ _ => Nat.zero_le _⟩
  · rename_i boundary hmin
    split
    · refine ⟨boundary, ⟨fun {o m} h => ?_, fun {o m} h hle _ => ?_⟩, fun γ g hg => ?_⟩
      · rw [OrdMap.get?_splitOff] at h
        split_ifs at h with hle
        exact ⟨h, hle⟩
      · rw [OrdMap.get?_splitOff, if_pos hle]
        exact h
      · refine (List.min?_eq_some_iff.mp hmin).2 _ ?_
        exact List.mem_map.mpr ⟨g, OrdMap.mem_values.mpr ⟨γ, hg⟩, rfl⟩
    · exact ⟨0, htriv, fun _ _ _ => Nat.zero_le _⟩

/-! ## Sweeping -/

@[simp] theorem sweepIdleGroups_nextOffset (t : TopicState) (now : Nat) :
    (sweepIdleGroups t now).1.nextOffset = t.nextOffset := rfl

theorem sweepIdleGroups_groups (t : TopicState) (now : Nat) (γ : GroupId) :
    (sweepIdleGroups t now).1.groups.get? γ =
      ((t.groups.get? γ).map (·.stamp now)).filter (keptBySweep now) := by
  simp only [sweepIdleGroups, OrdMap.get?_filter, OrdMap.get?_mapVals]

theorem sweepIdleGroups_size_le (t : TopicState) (now : Nat) :
    (sweepIdleGroups t now).1.groups.size ≤ t.groups.size := by
  refine (OrdMap.size_filter_le ..).trans ?_
  rw [OrdMap.size_mapVals]

@[simp] theorem sweepAndReclaim_nextOffset (t : TopicState) (now : Nat) :
    (sweepAndReclaim t now).nextOffset = t.nextOffset := by
  simp only [sweepAndReclaim]
  split
  · rw [reclaim_nextOffset, sweepIdleGroups_nextOffset]
  · rfl

theorem sweepAndReclaim_sub {t : TopicState} {now : Nat} {γ : GroupId} {g' : GroupState}
    (h : (sweepAndReclaim t now).groups.get? γ = some g') :
    ∃ g, t.groups.get? γ = some g ∧ g' = g.stamp now ∧ keptBySweep now g' = true := by
  have hs : (sweepIdleGroups t now).1.groups.get? γ = some g' := by
    simp only [sweepAndReclaim] at h
    split at h
    · exact reclaim_sub h
    · exact h
  rw [sweepIdleGroups_groups] at hs
  obtain ⟨hmap, hkept⟩ := Option.filter_eq_some_iff.mp hs
  obtain ⟨g, hg, rfl⟩ := Option.map_eq_some_iff.mp hmap
  exact ⟨g, hg, rfl, hkept⟩

theorem sweepAndReclaim_groups_of_small {t : TopicState} (now : Nat)
    (h : t.groups.size ≤ groupGcThreshold) (γ : GroupId) :
    (sweepAndReclaim t now).groups.get? γ =
      ((t.groups.get? γ).map (·.stamp now)).filter (keptBySweep now) := by
  rw [← sweepIdleGroups_groups]
  simp only [sweepAndReclaim]
  split
  · rw [reclaim_groups_of_small ((sweepIdleGroups_size_le t now).trans h)]
  · rfl

theorem sweepAndReclaim_cut (t : TopicState) (now : Nat) :
    ∃ boundary, Cut t.nextOffset boundary t.messages (sweepAndReclaim t now).messages ∧
      ∀ γ g, (sweepAndReclaim t now).groups.get? γ = some g →
        boundary ≤ g.ackWatermark := by
  simp only [sweepAndReclaim]
  split
  · obtain ⟨b, hcut, hle⟩ := reclaim_cut (sweepIdleGroups t now).1
    exact ⟨b, hcut, fun γ g hg => hle γ g (reclaim_sub hg)⟩
  · exact ⟨0, ⟨fun h => ⟨h, Nat.zero_le _⟩, fun h _ _ => h⟩, fun _ _ _ => Nat.zero_le _⟩

/-! ## Selecting -/

theorem mem_pushBounded {slots : Nat} {top : List Ranked} {x y : Ranked}
    (h : y ∈ pushBounded slots top x) : y = x ∨ y ∈ top := by
  unfold pushBounded at h
  simp only at h
  have hmem : y ∈ top.orderedInsert rankLe x := by
    split_ifs at h
    · exact List.mem_of_mem_tail h
    · exact h
  exact (List.mem_orderedInsert rankLe).mp hmem

/-- Everything the pass collects is a deliverable message of the log. -/
theorem mem_selectLoop {g : GroupState} {max slots : Nat}
    {l : List (Offset × Message)} {s : Selection} {x : Ranked}
    (h : x ∈ (selectLoop g max slots l s).earliest ∨
      x ∈ (selectLoop g max slots l s).top) :
    (x ∈ s.earliest ∨ x ∈ s.top) ∨
      ∃ m, (x.2, m) ∈ l ∧ m.priority = x.1 ∧ deliverableTo g x.2 = true := by
  induction l generalizing s with
  | nil => exact Or.inl h
  | cons e rest ih =>
      obtain ⟨k, msg⟩ := e
      have hlift : (∃ m, (x.2, m) ∈ rest ∧ m.priority = x.1 ∧ deliverableTo g x.2 = true) →
          ∃ m, (x.2, m) ∈ (k, msg) :: rest ∧ m.priority = x.1 ∧
            deliverableTo g x.2 = true :=
        fun ⟨m, hm, hp, hd⟩ => ⟨m, List.mem_cons_of_mem _ hm, hp, hd⟩
      rw [selectLoop] at h
      by_cases hd : deliverableTo g k = true
      · have hhere : x = (msg.priority, k) →
            ∃ m, (x.2, m) ∈ (k, msg) :: rest ∧ m.priority = x.1 ∧
              deliverableTo g x.2 = true := by
          rintro rfl
          exact ⟨msg, List.mem_cons_self .., rfl, hd⟩
        simp only [hd, Bool.not_true, Bool.false_eq_true, if_false] at h
        split_ifs at h
        · rcases ih h with (h | h) | h
          · rcases List.mem_append.mp h with h | h
            · exact Or.inl (Or.inl h)
            · exact Or.inr (hhere (List.mem_singleton.mp h))
          · rcases mem_pushBounded h with h | h
            · exact Or.inr (hhere h)
            · exact Or.inl (Or.inr h)
          · exact Or.inr (hlift h)
        · rcases ih h with (h | h) | h
          · rcases List.mem_append.mp h with h | h
            · exact Or.inl (Or.inl h)
            · exact Or.inr (hhere (List.mem_singleton.mp h))
          · exact Or.inl (Or.inr h)
          · exact Or.inr (hlift h)
        · exact Or.inl h
        · rcases ih h with (h | h) | h
          · exact Or.inl (Or.inl h)
          · rcases mem_pushBounded h with h | h
            · exact Or.inr (hhere h)
            · exact Or.inl (Or.inr h)
          · exact Or.inr (hlift h)
      · simp only [hd, Bool.not_false, if_true] at h
        exact (ih h).imp_right hlift

/-- The set of chosen offsets is the set of the chosen list, which has no
offset twice. -/
def ChosenOk (acc : Finset Offset × List Ranked) : Prop :=
  (acc.2.map Prod.snd).Nodup ∧ ∀ o, o ∈ acc.1 ↔ o ∈ acc.2.map Prod.snd

theorem ChosenOk.pushNew {acc : Finset Offset × List Ranked} (h : ChosenOk acc)
    (x : Ranked) : ChosenOk (pushNew acc x) := by
  unfold HermesMq.pushNew
  split_ifs with hx
  · exact h
  · refine ⟨?_, fun o => ?_⟩
    · rw [List.map_append, List.nodup_append]
      refine ⟨h.1, by simp, fun a ha b hb hab => ?_⟩
      rw [List.map_cons, List.map_nil, List.mem_singleton] at hb
      exact hx ((h.2 _).mpr (hb ▸ hab ▸ ha))
    · simp only [Finset.mem_insert, List.map_append, List.mem_append, h.2, List.map_cons,
        List.map_nil, List.mem_singleton]
      tauto

theorem mem_pushNew {acc : Finset Offset × List Ranked} {x y : Ranked}
    (h : y ∈ (pushNew acc x).2) : y ∈ acc.2 ∨ y = x := by
  unfold pushNew at h
  split_ifs at h
  · exact Or.inl h
  · rcases List.mem_append.mp h with h | h
    · exact Or.inl h
    · exact Or.inr (List.mem_singleton.mp h)

theorem mem_foldl_pushNew {l : List Ranked} {y : Ranked} :
    ∀ {acc : Finset Offset × List Ranked}, y ∈ (l.foldl pushNew acc).2 →
      y ∈ acc.2 ∨ y ∈ l := by
  induction l with
  | nil => exact fun h => Or.inl h
  | cons x rest ih =>
      intro acc h
      rcases ih h with h | h
      · rcases mem_pushNew h with h | rfl
        · exact Or.inl h
        · exact Or.inr (List.mem_cons_self ..)
      · exact Or.inr (List.mem_cons_of_mem _ h)

theorem ChosenOk.fillEarliest {max : Nat} {l : List Ranked} :
    ∀ {acc : Finset Offset × List Ranked}, ChosenOk acc →
      ChosenOk (fillEarliest max l acc) := by
  induction l with
  | nil => exact fun h => h
  | cons x rest ih =>
      intro acc h
      rw [HermesMq.fillEarliest]
      split_ifs
      · exact h
      · exact ih (h.pushNew x)

theorem mem_fillEarliest {max : Nat} {l : List Ranked} {y : Ranked} :
    ∀ {acc : Finset Offset × List Ranked}, y ∈ (fillEarliest max l acc).2 →
      y ∈ acc.2 ∨ y ∈ l := by
  induction l with
  | nil => exact fun h => Or.inl h
  | cons x rest ih =>
      intro acc h
      rw [fillEarliest] at h
      split_ifs at h
      · exact Or.inl h
      · rcases ih h with h | h
        · rcases mem_pushNew h with h | rfl
          · exact Or.inl h
          · exact Or.inr (List.mem_cons_self ..)
        · exact Or.inr (List.mem_cons_of_mem _ h)

theorem choose_nodup (messages : OrdMap Offset Message) (g : GroupState)
    (max pollCount : Nat) : ((choose messages g max pollCount).map Prod.snd).Nodup := by
  have htop : ∀ l : List Ranked, ChosenOk (l.foldl pushNew (∅, [])) := fun l =>
    List.foldlRecOn l _ ⟨List.nodup_nil, by simp⟩ fun _ h x _ => h.pushNew x
  unfold choose
  exact ((List.perm_insertionSort deliveryLe _).map Prod.snd).nodup_iff.mpr
    (ChosenOk.fillEarliest (htop _)).1

/-- The offset is retained, at or above the group's watermark, and neither
acked nor leased. -/
structure Deliverable (messages : OrdMap Offset Message) (g : GroupState)
    (o : Offset) : Prop where
  retained : ∃ m, messages.get? o = some m
  above : g.ackWatermark ≤ o
  unacked : o ∉ g.ackedAbove
  unleased : g.leasedOffsets.get? o = none

theorem Deliverable.not_done {messages : OrdMap Offset Message} {g : GroupState}
    {o : Offset} (h : Deliverable messages g o) : ¬g.Done o := by
  rintro (hlt | hmem)
  · exact absurd h.above (not_le.mpr hlt)
  · exact h.unacked hmem

theorem mem_choose {messages : OrdMap Offset Message} {g : GroupState}
    {max pollCount : Nat} {x : Ranked} (h : x ∈ choose messages g max pollCount) :
    Deliverable messages g x.2 := by
  unfold choose at h
  rw [List.mem_insertionSort] at h
  have hsel : ∃ m, (x.2, m) ∈ (messages.splitOff g.ackWatermark).entries ∧
      m.priority = x.1 ∧ deliverableTo g x.2 = true := by
    rcases mem_fillEarliest h with h | h
    · rcases mem_foldl_pushNew h with h | h
      · cases h
      · exact (mem_selectLoop (Or.inr h)).resolve_left (by simp)
    · exact (mem_selectLoop (Or.inl h)).resolve_left (by simp)
  obtain ⟨m, hm, -, hd⟩ := hsel
  have hget := OrdMap.get?_eq_some.mpr hm
  rw [OrdMap.get?_splitOff] at hget
  split_ifs at hget with hle
  simp only [deliverableTo, Bool.not_eq_true', Bool.or_eq_false_iff, decide_eq_false_iff_not]
    at hd
  exact ⟨⟨m, hget⟩, hle, hd.1, OrdMap.contains_eq_false.mp hd.2⟩

/-! ## Leasing -/

/-- Leasing touches nothing but the two lease maps. -/
theorem leaseChosen_same (messages : OrdMap Offset Message) (d : Nat) :
    ∀ (l : List Ranked) (g : GroupState) (n : LeaseId),
      GroupState.SameButLeases g (leaseChosen messages d l g n).1 := by
  intro l
  induction l with
  | nil => exact fun _ _ => ⟨rfl, rfl, rfl, rfl⟩
  | cons x rest ih =>
      intro g n
      have h := ih (g.takeLease n x.2 d) (satAdd n 1)
      exact ⟨h.1, h.2, h.3, h.4⟩

/-- Every item handed out is a chosen offset, with the message's own
contents. -/
theorem mem_leaseChosen {messages : OrdMap Offset Message} {d : Nat} {item : Delivered} :
    ∀ {l : List Ranked} {g : GroupState} {n : LeaseId},
      item ∈ (leaseChosen messages d l g n).2.2 →
      item.offset ∈ l.map Prod.snd ∧
        ∃ m, messages.get? item.offset = some m ∧ item.priority = m.priority ∧
          item.contentType = m.contentType ∧ item.payload = m.payload ∧
          item.tsMs = m.tsMs := by
  intro l
  induction l with
  | nil => intro g n h; cases h
  | cons x rest ih =>
      intro g n h
      rcases List.mem_append.mp h with h | h
      · obtain ⟨msg, hmsg, rfl⟩ := Option.map_eq_some_iff.mp (Option.mem_toList.mp h)
        exact ⟨List.mem_cons_self .., msg, hmsg, rfl, rfl, rfl, rfl⟩
      · obtain ⟨hmem, hm⟩ := ih h
        exact ⟨List.mem_cons_of_mem _ hmem, hm⟩

theorem leaseChosen_offsets_sublist (messages : OrdMap Offset Message) (d : Nat) :
    ∀ (l : List Ranked) (g : GroupState) (n : LeaseId),
      ((leaseChosen messages d l g n).2.2.map (·.offset)).Sublist (l.map Prod.snd) := by
  intro l
  induction l with
  | nil => exact fun _ _ => List.Sublist.refl _
  | cons x rest ih =>
      intro g n
      have h := ih (g.takeLease n x.2 d) (satAdd n 1)
      simp only [leaseChosen, List.map_append, List.map_cons]
      cases messages.get? x.2 with
      | none => exact h.cons _
      | some msg => exact h.cons_cons _

/-- A lease in flight afterwards was handed out with an item, or was in
flight before under an id no item got. -/
theorem leaseChosen_inFlight {messages : OrdMap Offset Message} {d : Nat} {id : LeaseId}
    {lease : Lease} :
    ∀ {l : List Ranked} {g : GroupState} {n : LeaseId},
      (∀ x ∈ l, ∃ m, messages.get? x.2 = some m) →
      (leaseChosen messages d l g n).1.inFlight.get? id = some lease →
      (∃ item ∈ (leaseChosen messages d l g n).2.2, item.leaseId = id ∧
        lease = ⟨item.offset, d⟩) ∨
      ((∀ item ∈ (leaseChosen messages d l g n).2.2, item.leaseId ≠ id) ∧
        g.inFlight.get? id = some lease) := by
  intro l
  induction l with
  | nil => exact fun _ h => Or.inr ⟨fun _ hi => absurd hi List.not_mem_nil, h⟩
  | cons x rest ih =>
      intro g n hret h
      obtain ⟨m, hm⟩ := hret x (List.mem_cons_self ..)
      have hitems : (leaseChosen messages d (x :: rest) g n).2.2 =
          deliveredItem n x.2 m ::
            (leaseChosen messages d rest (g.takeLease n x.2 d) (satAdd n 1)).2.2 := by
        simp only [leaseChosen, hm, Option.map_some, Option.toList_some, List.singleton_append]
      rw [hitems]
      rcases ih (fun y hy => hret y (List.mem_cons_of_mem _ hy)) h with
        ⟨item, hmem, hid, hl⟩ | ⟨hne, hold⟩
      · exact Or.inl ⟨item, List.mem_cons_of_mem _ hmem, hid, hl⟩
      · rw [GroupState.takeLease, OrdMap.get?_insert] at hold
        split_ifs at hold with hid
        · exact Or.inl ⟨_, List.mem_cons_self .., hid.symm, (Option.some.inj hold).symm⟩
        · refine Or.inr ⟨fun item hi => ?_, hold⟩
          rcases List.mem_cons.mp hi with rfl | hi
          · exact Ne.symm hid
          · exact hne item hi

/-! ## Polling a group -/

section PollGroup

variable {messages : OrdMap Offset Message} {g0 : GroupState} {max vis ts : Nat} {n : LeaseId}

theorem pollGroup_same :
    GroupState.SameButLeases (g0.beginPoll ts) (pollGroup messages g0 max vis ts n).1 := by
  unfold pollGroup
  simp only
  split_ifs
  · exact ⟨rfl, rfl, rfl, rfl⟩
  · exact leaseChosen_same ..

theorem pollGroup_done {o : Offset} :
    (pollGroup messages g0 max vis ts n).1.Done o ↔ g0.Done o :=
  pollGroup_same.done.trans (GroupState.beginPoll_done ..)

/-- What a poll hands out was deliverable once expired leases were gone. -/
theorem pollGroup_deliverable {item : Delivered}
    (h : item ∈ (pollGroup messages g0 max vis ts n).2.2) :
    Deliverable messages (g0.beginPoll ts) item.offset := by
  unfold pollGroup at h
  simp only at h
  split_ifs at h
  · cases h
  · obtain ⟨x, hx, hoff⟩ := List.mem_map.mp (mem_leaseChosen h).1
    exact hoff ▸ mem_choose hx

theorem pollGroup_offsets_nodup :
    ((pollGroup messages g0 max vis ts n).2.2.map (·.offset)).Nodup := by
  unfold pollGroup
  simp only
  split_ifs
  · exact List.nodup_nil
  · exact (leaseChosen_offsets_sublist ..).nodup (choose_nodup ..)

theorem pollGroup_inFlight {id : LeaseId} {lease : Lease}
    (h : (pollGroup messages g0 max vis ts n).1.inFlight.get? id = some lease) :
    (∃ item ∈ (pollGroup messages g0 max vis ts n).2.2, item.leaseId = id ∧
      lease = ⟨item.offset, satAdd ts vis⟩) ∨
    ((∀ item ∈ (pollGroup messages g0 max vis ts n).2.2, item.leaseId ≠ id) ∧
      (g0.beginPoll ts).inFlight.get? id = some lease) := by
  unfold pollGroup at h ⊢
  simp only at h ⊢
  split_ifs at h ⊢
  · exact Or.inr ⟨fun _ hi => absurd hi List.not_mem_nil, h⟩
  · exact leaseChosen_inFlight (fun x hx => (mem_choose hx).retained) h

end PollGroup

end HermesMq
