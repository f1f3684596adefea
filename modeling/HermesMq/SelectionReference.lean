import HermesMq.LeaseIds
import HermesMq.QueueLease
import HermesMq.TopK
import HermesMq.TopicLimit

/-!
# The bounded selection against the sorting one

`poll` picks its messages in one pass, with a bounded heap and a list of
the earliest candidates. `referenceSelection` is the algorithm it has to
agree with, which sorts all candidates. They choose the same offsets: the
heap ends with the best of the candidates (`TopK`), the first `max`
candidates are enough to fill up from (`take_filter_take`), and both sort
what they chose by the same linear order.

The reference chooses from the messages that are neither acked nor under an
unexpired lease (`eligible`), `poll` from those it finds in neither of the
group's two sets once it has expired the leases (`candidates`). They are the
same as long as every lease has an id of its own (`eligible_eq_candidates`).
-/

namespace HermesMq

/-! ## The two orders -/

/-- Delivery order as a linear order: by priority downwards, then by offset. -/
def deliveryKey (x : Ranked) : Priorityᵒᵈ ×ₗ Offset := toLex (OrderDual.toDual x.1, x.2)

theorem deliveryKey_injective : Function.Injective deliveryKey := by
  intro a b h
  have hpair := toLex.injective h
  exact Prod.ext (OrderDual.toDual.injective (congrArg Prod.fst hpair)) (congrArg Prod.snd hpair)

theorem deliveryLe_iff {a b : Ranked} : deliveryLe a b ↔ deliveryKey a ≤ deliveryKey b := by
  rw [deliveryLe, deliveryKey, deliveryKey, Prod.Lex.le_iff]
  exact or_congr Iff.rfl (and_congr OrderDual.toDual.injective.eq_iff.symm Iff.rfl)

theorem rankLe_iff {a b : Ranked} : rankLe a b ↔ deliveryKey b ≤ deliveryKey a := by
  rw [← deliveryLe_iff, rankLe, deliveryLe, eq_comm]

instance rankLe_total : Std.Total rankLe :=
  ⟨fun a b => by rw [rankLe_iff, rankLe_iff]; exact le_total ..⟩

instance rankLe_trans : IsTrans Ranked rankLe :=
  ⟨fun a b c => by rw [rankLe_iff, rankLe_iff, rankLe_iff]; exact fun hab hbc => hbc.trans hab⟩

instance deliveryLe_total : Std.Total deliveryLe :=
  ⟨fun a b => by rw [deliveryLe_iff, deliveryLe_iff]; exact le_total ..⟩

instance deliveryLe_trans : IsTrans Ranked deliveryLe :=
  ⟨fun a b c => by rw [deliveryLe_iff, deliveryLe_iff, deliveryLe_iff]; exact le_trans⟩

instance deliveryLe_antisymm : Std.Antisymm deliveryLe :=
  ⟨fun _ _ hab hba => deliveryKey_injective
    (le_antisymm (deliveryLe_iff.mp hab) (deliveryLe_iff.mp hba))⟩

/-- Sorting for delivery forgets the order it starts from. -/
theorem insertionSort_delivery {l l' : List Ranked} (h : l.Perm l') :
    l.insertionSort deliveryLe = l'.insertionSort deliveryLe :=
  List.Perm.eq_of_pairwise' (List.pairwise_insertionSort deliveryLe l)
    (List.pairwise_insertionSort deliveryLe l')
    (((List.perm_insertionSort _ l).trans h).trans (List.perm_insertionSort _ l').symm)

/-! ## The reference -/

/-- What the group can be delivered, in offset order. -/
def candidates (messages : OrdMap Offset Message) (g : GroupState) : List Ranked :=
  ((messages.splitOff g.ackWatermark).entries.filter fun e => deliverableTo g e.1).map
    fun e => (e.2.priority, e.1)

/-- The slots of a poll of `max` filled by priority. -/
def prioritySlots (max pollCount : Nat) : Nat :=
  let base := max / reservedDen
  let bonus := if (pollCount + 1) % reservedDen = 0 then 1 else 0
  let reserved := min (base + bonus) max
  max - reserved

/-- The algorithm of `reference_selection`: take the best by priority, fill
up with the earliest, then with the best again, and sort. -/
def referenceSelection (candidates : List Ranked) (max pollCount : Nat) : List Offset :=
  if candidates = [] ∨ max = 0 then []
  else
    let byPriority := candidates.insertionSort deliveryLe
    let chosen := fillEarliest (prioritySlots max pollCount) byPriority (∅, [])
    let chosen := fillEarliest max candidates chosen
    let chosen := fillEarliest max byPriority chosen
    (chosen.2.insertionSort deliveryLe).map Prod.snd

/-! ## The loops as list operations -/

/-- The offsets of a list. -/
def offsets (l : List Ranked) : List Offset := l.map Prod.snd

theorem foldl_pushBounded_zero (l : List Ranked) : l.foldl (pushBounded 0) [] = [] := by
  induction l with
  | nil => rfl
  | cons x rest ih => exact ih

/-- The pass: the first `max` candidates, and the heap fed with all. -/
theorem selectLoop_eq (g : GroupState) (max slots : Nat) (l : List (Offset × Message))
    (s : Selection) (htop : slots = 0 → s.top = []) :
    selectLoop g max slots l s =
      { earliest := s.earliest ++ ((l.filter fun e => deliverableTo g e.1).map
          fun e => (e.2.priority, e.1)).take (max - s.earliest.length)
        top := ((l.filter fun e => deliverableTo g e.1).map
          fun e => (e.2.priority, e.1)).foldl (pushBounded slots) s.top } := by
  induction l generalizing s with
  | nil => simp [selectLoop]
  | cons e rest ih =>
      obtain ⟨o, m⟩ := e
      rw [selectLoop]
      cases hd : deliverableTo g o with
      | false =>
          rw [List.filter_cons_of_neg (by simp [hd])]
          exact ih s htop
      | true =>
          rw [List.filter_cons_of_pos (by simpa using hd), List.map_cons, List.foldl_cons]
          -- without slots the heap stays empty, pushed to or not
          have hpush : (if slots > 0 then pushBounded slots s.top (m.priority, o) else s.top) =
              pushBounded slots s.top (m.priority, o) := by
            split_ifs with hpos
            · rfl
            · obtain rfl : slots = 0 := by omega
              rw [htop rfl]
              rfl
          have hempty : slots = 0 → pushBounded slots s.top (m.priority, o) = [] := by
            rintro rfl
            rw [htop rfl]
            rfl
          simp only [Bool.not_true, Bool.false_eq_true, if_false, hpush]
          split_ifs with hlen hzero
          · rw [ih _ hempty, show max - s.earliest.length = max - (s.earliest ++
              [(m.priority, o)]).length + 1 by simp; omega, List.take_succ_cons]
            simp
          · rw [Nat.sub_eq_zero_of_le (not_lt.mp hlen), List.take_zero, List.append_nil,
              hempty hzero, hzero, foldl_pushBounded_zero, ← htop hzero]
          · rw [ih _ fun h => absurd h hzero, Nat.sub_eq_zero_of_le (not_lt.mp hlen)]
            rfl

/-- Filling up takes the first items whose offset is not chosen yet, as far
as there is room. -/
theorem fillEarliest_eq (max : Nat) {l : List Ranked} (hnd : (offsets l).Nodup) :
    ∀ {acc : Finset Offset × List Ranked}, ChosenOk acc →
      (fillEarliest max l acc).2 =
        acc.2 ++ (l.filter fun x => x.2 ∉ offsets acc.2).take (max - acc.2.length) := by
  induction l with
  | nil =>
      intro acc _
      rw [List.filter_nil, List.take_nil, List.append_nil, fillEarliest]
  | cons x rest ih =>
      intro acc h
      obtain ⟨hx, hrest⟩ := List.nodup_cons.mp hnd
      rw [fillEarliest]
      split_ifs with hfull
      · rw [Nat.sub_eq_zero_of_le hfull, List.take_zero, List.append_nil]
      · rw [ih hrest (h.pushNew x)]
        by_cases hmem : x.2 ∈ acc.1
        · have hin : x.2 ∈ offsets acc.2 := (h.2 x.2).mp hmem
          rw [List.filter_cons_of_neg (by simpa using hin), pushNew, if_pos hmem]
        · have hout : x.2 ∉ offsets acc.2 := fun hin => hmem ((h.2 x.2).mpr hin)
          have hsame : (rest.filter fun y => y.2 ∉ offsets (acc.2 ++ [x])) =
              rest.filter fun y => y.2 ∉ offsets acc.2 := by
            refine List.filter_congr fun y hy => ?_
            have hne : y.2 ≠ x.2 := fun heq => hx (heq ▸ List.mem_map_of_mem hy)
            simp [offsets, hne]
          rw [List.filter_cons_of_pos (by simpa using hout), pushNew, if_neg hmem, hsame,
            List.length_append, List.length_singleton,
            show max - acc.2.length = max - (acc.2.length + 1) + 1 by omega, List.take_succ_cons,
            List.append_assoc, List.singleton_append]

/-- Distinct offsets are all pushed. -/
theorem foldl_pushNew_eq {l : List Ranked} :
    ∀ {acc : Finset Offset × List Ranked}, ChosenOk acc → (offsets (acc.2 ++ l)).Nodup →
      ChosenOk (l.foldl pushNew acc) ∧ (l.foldl pushNew acc).2 = acc.2 ++ l := by
  induction l with
  | nil =>
      intro acc h _
      exact ⟨h, (List.append_nil _).symm⟩
  | cons x rest ih =>
      intro acc h hnd
      have hnew : x.2 ∉ acc.1 := by
        intro hmem
        rw [offsets, List.map_append, List.nodup_append] at hnd
        exact hnd.2.2 _ ((h.2 x.2).mp hmem) _ (List.mem_map_of_mem List.mem_cons_self) rfl
      have hpush : pushNew acc x = (insert x.2 acc.1, acc.2 ++ [x]) := if_neg hnew
      have hlist : acc.2 ++ x :: rest = (pushNew acc x).2 ++ rest := by
        rw [hpush, List.append_assoc, List.singleton_append]
      rw [hlist] at hnd ⊢
      exact ih (h.pushNew x) hnd

theorem chosenOk_empty : ChosenOk (∅, []) :=
  ⟨List.nodup_nil, fun _ => Iff.rfl⟩

/-! ## Enough to fill up from -/

section Fill

variable {c t : List Ranked} (hnd : (offsets c).Nodup) (hsub : t.Subperm c)

include hnd hsub

theorem filter_mem_perm : (c.filter fun x => x.2 ∈ offsets t).Perm t := by
  have hc : c.Nodup := List.Nodup.of_map _ hnd
  have ht : t.Nodup := by
    obtain ⟨l, hperm, hl⟩ := hsub
    exact hperm.nodup_iff.mp (hl.nodup hc)
  refine (List.perm_ext_iff_of_nodup (hc.filter _) ht).mpr fun x => ?_
  rw [List.mem_filter, decide_eq_true_eq]
  constructor
  · rintro ⟨hx, hmem⟩
    obtain ⟨y, hy, heq⟩ := List.mem_map.mp hmem
    exact List.inj_on_of_nodup_map hnd (hsub.subset hy) hx heq ▸ hy
  · intro hx
    exact ⟨hsub.subset hx, List.mem_map_of_mem hx⟩

/-- What is chosen and what is not make up all candidates. -/
theorem append_filter_perm : (t ++ c.filter fun x => x.2 ∉ offsets t).Perm c := by
  have hsplit := List.filter_append_perm (fun x : Ranked => decide (x.2 ∈ offsets t)) c
  simp only [← decide_not] at hsplit
  exact ((filter_mem_perm hnd hsub).symm.append_right _).trans hsplit

/-- Of the first `max` candidates, all but the chosen ones are left to fill
up to `max` from; the later ones are not needed. -/
theorem take_filter_take (max : Nat) :
    ((c.take max).filter fun x => x.2 ∉ offsets t).take (max - t.length) =
      (c.filter fun x => x.2 ∉ offsets t).take (max - t.length) := by
  rcases Nat.le_total c.length max with hle | hge
  · rw [List.take_of_length_le hle]
  · have hcount := List.length_eq_length_filter_add (l := c.take max)
      fun x : Ranked => decide (x.2 ∈ offsets t)
    have hfew : ((c.take max).filter fun x => x.2 ∈ offsets t).length ≤ t.length := by
      rw [← (filter_mem_perm hnd hsub).length_eq]
      exact ((List.take_sublist max c).filter _).length_le
    simp only [← decide_not, List.length_take] at hcount
    conv_rhs => rw [← List.take_append_drop max c, List.filter_append]
    rw [List.take_append_of_le_length]
    omega

end Fill

/-! ## The selections agree -/

theorem candidates_nodup (messages : OrdMap Offset Message) (g : GroupState) :
    (offsets (candidates messages g)).Nodup := by
  rw [offsets, candidates, List.map_map]
  exact ((messages.splitOff g.ackWatermark).keys_nodup).sublist
    (List.Sublist.map Prod.fst List.filter_sublist)

theorem mem_candidates {messages : OrdMap Offset Message} {g : GroupState} {x : Ranked} :
    x ∈ candidates messages g ↔ Deliverable messages g x.2 ∧
      ∃ m, messages.get? x.2 = some m ∧ m.priority = x.1 := by
  have hfree : ∀ o, deliverableTo g o = true ↔ o ∉ g.ackedAbove ∧
      g.leasedOffsets.get? o = none := by
    intro o
    rw [deliverableTo, Bool.not_eq_true', Bool.or_eq_false_iff, decide_eq_false_iff_not,
      OrdMap.contains_eq_false]
  rw [candidates, List.mem_map]
  constructor
  · rintro ⟨⟨o, m⟩, he, rfl⟩
    obtain ⟨hmem, hdel⟩ := List.mem_filter.mp he
    have hget := OrdMap.get?_eq_some.mpr hmem
    rw [OrdMap.get?_splitOff] at hget
    split_ifs at hget with hle
    exact ⟨⟨⟨m, hget⟩, hle, ((hfree o).mp hdel).1, ((hfree o).mp hdel).2⟩, m, hget, rfl⟩
  · rintro ⟨hdel, m, hm, hp⟩
    refine ⟨(x.2, m), List.mem_filter.mpr ⟨OrdMap.get?_eq_some.mp ?_, (hfree x.2).mpr
      ⟨hdel.unacked, hdel.unleased⟩⟩, Prod.ext hp rfl⟩
    rw [OrdMap.get?_splitOff, if_pos hdel.above, hm]

/-- The best of the candidates, and then the earliest others, up to `max`. -/
def selection (c : List Ranked) (max slots : Nat) : List Ranked :=
  let best := (c.insertionSort deliveryLe).take slots
  best ++ (c.filter fun x => x.2 ∉ offsets best).take (max - best.length)

section Selection

variable {c : List Ranked} (hnd : (offsets c).Nodup) {max slots : Nat} (hslots : slots ≤ max)

theorem best_subperm (c : List Ranked) (slots : Nat) :
    ((c.insertionSort deliveryLe).take slots).Subperm c :=
  (List.take_sublist ..).subperm.trans (List.perm_insertionSort deliveryLe c).subperm

include hnd

theorem selection_subperm : (selection c max slots).Subperm c :=
  ((List.take_sublist ..).append_left _).subperm.trans
    (append_filter_perm hnd (best_subperm c slots)).subperm

include hslots

theorem length_selection : (selection c max slots).length = min max c.length := by
  have hall := (append_filter_perm hnd (best_subperm c slots)).length_eq
  rw [List.length_append] at hall
  rw [selection, List.length_append, List.length_take (i := max - _)]
  simp only [List.length_take, List.length_insertionSort] at hall ⊢
  omega

/-- A second round by priority adds nothing. -/
theorem filter_selection :
    ((c.insertionSort deliveryLe).filter fun x => x.2 ∉ offsets (selection c max slots)).take
      (max - (selection c max slots).length) = [] := by
  rw [length_selection hnd hslots]
  rcases Nat.le_total max c.length with hle | hge
  · rw [Nat.min_eq_left hle, Nat.sub_self, List.take_zero]
  · have hsub : (selection c max slots).Subperm c := selection_subperm hnd
    have hperm := hsub.perm_of_length_le
      (by rw [length_selection hnd hslots, Nat.min_eq_right hge])
    rw [List.filter_eq_nil_iff.mpr, List.take_nil]
    intro x hx
    rw [List.mem_insertionSort, ← hperm.mem_iff] at hx
    have hmem : x.2 ∈ offsets (selection c max slots) := List.mem_map_of_mem hx
    rw [decide_eq_true_eq, not_not]
    exact hmem

end Selection

theorem prioritySlots_le (max pollCount : Nat) : prioritySlots max pollCount ≤ max :=
  Nat.sub_le ..

theorem referenceSelection_eq {c : List Ranked} (hnd : (offsets c).Nodup) (max pollCount : Nat) :
    referenceSelection c max pollCount =
      offsets ((selection c max (prioritySlots max pollCount)).insertionSort deliveryLe) := by
  have hlen := length_selection hnd (prioritySlots_le max pollCount)
  have hby : (offsets (c.insertionSort deliveryLe)).Nodup :=
    ((List.perm_insertionSort deliveryLe c).map Prod.snd).nodup_iff.mpr hnd
  unfold referenceSelection
  split_ifs with hnone
  · have hzero : min max c.length = 0 := by
      rcases hnone with rfl | rfl
      · exact Nat.min_zero _
      · exact Nat.zero_min _
    rw [List.length_eq_zero_iff.mp (hlen.trans hzero)]
    rfl
  · change offsets (List.insertionSort deliveryLe (fillEarliest max _ (fillEarliest max _
      (fillEarliest _ _ _))).2) = _
    have hok : ChosenOk (fillEarliest (prioritySlots max pollCount)
      (c.insertionSort deliveryLe) (∅, [])) := chosenOk_empty.fillEarliest
    have hok' : ChosenOk (fillEarliest max c (fillEarliest (prioritySlots max pollCount)
      (c.insertionSort deliveryLe) (∅, []))) := hok.fillEarliest
    have hbest : (fillEarliest (prioritySlots max pollCount) (c.insertionSort deliveryLe)
        (∅, [])).2 = (c.insertionSort deliveryLe).take (prioritySlots max pollCount) := by
      rw [fillEarliest_eq _ hby chosenOk_empty]
      simp [offsets]
    have hfill : (fillEarliest max c (fillEarliest (prioritySlots max pollCount)
        (c.insertionSort deliveryLe) (∅, []))).2 =
        selection c max (prioritySlots max pollCount) := by
      rw [fillEarliest_eq max hnd hok, hbest]
      rfl
    rw [fillEarliest_eq max hby hok', hfill, filter_selection hnd (prioritySlots_le max pollCount),
      List.append_nil]

/-- The merge of `poll`: from a heap that holds the best and a list of the
first `max`, it makes up the selection. -/
theorem merge_perm {c top : List Ranked} (hnd : (offsets c).Nodup) (max : Nat) {slots : Nat}
    (htop : top.reverse = (c.insertionSort deliveryLe).take slots) :
    (fillEarliest max (c.take max) (top.foldl pushNew (∅, []))).2.Perm
      (selection c max slots) := by
  have hbest : top.Perm ((c.insertionSort deliveryLe).take slots) :=
    htop ▸ (List.reverse_perm top).symm
  have hsub : top.Subperm c := hbest.subperm.trans (best_subperm c slots)
  have htopnd : (offsets top).Nodup := by
    obtain ⟨l, hperm, hl⟩ := hsub
    exact (hperm.map Prod.snd).nodup_iff.mp (hnd.sublist (hl.map Prod.snd))
  have hcut : (offsets (c.take max)).Nodup := hnd.sublist ((List.take_sublist ..).map Prod.snd)
  obtain ⟨hok, heq⟩ := foldl_pushNew_eq (l := top) chosenOk_empty htopnd
  rw [List.nil_append] at heq
  rw [fillEarliest_eq max hcut hok, heq, take_filter_take hnd hsub, selection]
  have hsame : (c.filter fun x => x.2 ∉ offsets top) =
      c.filter fun x => x.2 ∉ offsets ((c.insertionSort deliveryLe).take slots) := by
    refine List.filter_congr fun x _ => ?_
    rw [decide_eq_decide, not_iff_not]
    exact (hbest.map Prod.snd).mem_iff
  rw [hsame, hbest.length_eq]
  exact hbest.append_right _

/-- The one-pass selection is the sorting one. -/
theorem choose_eq (messages : OrdMap Offset Message) (g : GroupState) (max pollCount : Nat) :
    choose messages g max pollCount =
      (selection (candidates messages g) max (prioritySlots max pollCount)).insertionSort
        deliveryLe := by
  have hpass := selectLoop_eq g max (prioritySlots max pollCount)
    (messages.splitOff g.ackWatermark).entries {} fun _ => rfl
  have hheap := TopK.reverse_foldl_keepGreatest rankLe
    (fun a b h => deliveryLe_iff.mpr (rankLe_iff.mp h)) (prioritySlots max pollCount)
    (candidates messages g)
  refine Eq.trans ?_ (insertionSort_delivery
    (merge_perm (candidates_nodup messages g) max hheap))
  change (fillEarliest max (selectLoop g max (prioritySlots max pollCount) _ {}).earliest
    ((selectLoop g max (prioritySlots max pollCount) _ {}).top.foldl pushNew (∅, []))).2.insertionSort
      deliveryLe = _
  rw [hpass]
  rfl

theorem length_choose (messages : OrdMap Offset Message) (g : GroupState) (max pollCount : Nat) :
    (choose messages g max pollCount).length = min max (candidates messages g).length := by
  rw [choose_eq, List.length_insertionSort,
    length_selection (candidates_nodup messages g) (prioritySlots_le max pollCount)]

/-- The two algorithms agree. -/
theorem offsets_choose (messages : OrdMap Offset Message) (g : GroupState) (max pollCount : Nat) :
    offsets (choose messages g max pollCount) =
      referenceSelection (candidates messages g) max pollCount := by
  rw [choose_eq, referenceSelection_eq (candidates_nodup messages g)]

/-! ## Polls -/

/-- Leasing retained offsets hands out one item each, in order, numbered
from the counter on. The last of them may take the last id. -/
theorem leaseChosen_items {messages : OrdMap Offset Message} {d : Nat} :
    ∀ {l : List Ranked} {g : GroupState} {n : LeaseId},
      (∀ x ∈ l, ∃ m, messages.get? x.2 = some m) →
      (leaseChosen messages d l g n).2.2.map (·.offset) = offsets l ∧
      (n + l.length ≤ u64Max + 1 →
        (leaseChosen messages d l g n).2.2.map (·.leaseId) = List.range' n l.length) := by
  intro l
  induction l with
  | nil =>
      intro g n _
      exact ⟨rfl, fun _ => rfl⟩
  | cons x rest ih =>
      intro g n hret
      obtain ⟨hx, hrest⟩ := List.forall_mem_cons.mp hret
      obtain ⟨m, hm⟩ := hx
      obtain ⟨hoffsets, hids⟩ := ih (g := g.takeLease n x.2 d) (n := satAdd n 1) hrest
      simp only [leaseChosen, hm, Option.map_some, Option.toList_some, List.singleton_append,
        List.map_cons, List.length_cons, offsets] at hoffsets ⊢
      refine ⟨congrArg _ hoffsets, fun hroom => ?_⟩
      rcases Nat.lt_or_ge n u64Max with hlt | hge
      · rw [satAdd_one_of_lt hlt] at hids ⊢
        rw [List.range'_succ, hids (by rwa [Nat.add_assoc, Nat.add_comm 1])]
        rfl
      · have hfull : u64Max + rest.length ≤ u64Max :=
          (Nat.add_le_add_right hge _).trans (Nat.le_of_succ_le_succ hroom)
        have hlast : rest.length = 0 := by omega
        obtain rfl := List.length_eq_zero_iff.mp hlast
        rfl

theorem pollGroup_eq (messages : OrdMap Offset Message) (g₀ : GroupState) (max vis ts : Nat)
    (n : LeaseId) : pollGroup messages g₀ max vis ts n =
      leaseChosen messages (satAdd ts vis)
        (choose messages (g₀.beginPoll ts) max g₀.pollCount) (g₀.beginPoll ts) n := by
  unfold pollGroup
  split_ifs with hmax
  · have hnone : choose messages (g₀.beginPoll ts) max g₀.pollCount = [] := by
      rw [← List.length_eq_zero_iff, length_choose, hmax, Nat.zero_min]
    rw [hnone]
    rfl
  · rfl

/-- A poll of a group that the topic has, or has room for. -/
theorem poll_entered {q : Queue} {τ : TopicId} {γ : GroupId} {t : TopicState} {g₀ : GroupState}
    (max vis ts : Nat) (ht : q.topics.get? τ = some t)
    (hentry : groupEntry (sweepAndReclaim t ts) γ (some ts) = some g₀) :
    ∃ r, r = leaseChosen (sweepAndReclaim t ts).messages (satAdd ts (min vis maxVisibilityMs))
      (choose (sweepAndReclaim t ts).messages (g₀.beginPoll ts) max g₀.pollCount)
      (g₀.beginPoll ts) q.nextLeaseId ∧
    q.poll τ γ max vis ts = ({ q.putTopic τ (putGroup (sweepAndReclaim t ts) γ r.1) with
      nextLeaseId := r.2.1 }, r.2.2) := by
  refine ⟨_, rfl, ?_⟩
  rw [← pollGroup_eq]
  simp only [Queue.poll, ht, pollTopic, hentry]

/-- The offsets a poll hands out, in order. -/
theorem poll_offsets {q : Queue} {τ : TopicId} {γ : GroupId} {t : TopicState} {g₀ : GroupState}
    (max vis ts : Nat) (ht : q.topics.get? τ = some t)
    (hentry : groupEntry (sweepAndReclaim t ts) γ (some ts) = some g₀) :
    (q.poll τ γ max vis ts).2.map (·.offset) = offsets
      (choose (sweepAndReclaim t ts).messages (g₀.beginPoll ts) max g₀.pollCount) := by
  obtain ⟨r, rfl, hpoll⟩ := poll_entered max vis ts ht hentry
  rw [hpoll]
  exact (leaseChosen_items fun x hx => (mem_choose hx).retained).1

theorem poll_length {q : Queue} {τ : TopicId} {γ : GroupId} {t : TopicState} {g₀ : GroupState}
    (max vis ts : Nat) (ht : q.topics.get? τ = some t)
    (hentry : groupEntry (sweepAndReclaim t ts) γ (some ts) = some g₀) :
    (q.poll τ γ max vis ts).2.length =
      min max (candidates (sweepAndReclaim t ts).messages (g₀.beginPoll ts)).length := by
  have hlength := congrArg List.length (poll_offsets max vis ts ht hentry)
  rwa [List.length_map, offsets, List.length_map, length_choose] at hlength

/-- A poll brings at most `max` messages. -/
theorem poll_length_le (q : Queue) (τ : TopicId) (γ : GroupId) (max vis ts : Nat) :
    (q.poll τ γ max vis ts).2.length ≤ max := by
  cases ht : q.topics.get? τ with
  | none => simp [Queue.poll, ht]
  | some t =>
      cases hentry : groupEntry (sweepAndReclaim t ts) γ (some ts) with
      | none => simp [Queue.poll, ht, pollTopic, hentry]
      | some g₀ => exact (poll_length max vis ts ht hentry).trans_le (Nat.min_le_left ..)

/-! ## What a group has not been given -/

/-- The retained messages from the watermark on that are neither acked nor
under a lease that outlives `now`, with the priority of each. -/
def eligible (messages : OrdMap Offset Message) (g : GroupState) (now : Nat) : List Ranked :=
  ((messages.splitOff g.ackWatermark).entries.filter fun e =>
    decide (e.1 ∉ g.ackedAbove) && (g.leasedOffsets.get? e.1).all (· ≤ now)).map
    fun e => (e.2.priority, e.1)

/-- The start of a poll frees the offsets whose leases have run out. -/
theorem beginPoll_unleased_iff {g : GroupState} (hagree : g.LeasesAgree)
    (hbacked : g.LeasesBacked) (now : Nat) (o : Offset) :
    (g.beginPoll now).leasedOffsets.get? o = none ↔
      (g.leasedOffsets.get? o).all (· ≤ now) = true := by
  have hexpire := hagree.dropLeases_leasedOffsets hbacked (fun l => l.deadlineMs ≤ now) o
  rw [show (g.beginPoll now).leasedOffsets = (g.expire now).leasedOffsets from rfl,
    GroupState.expire, hexpire]
  cases g.leasedOffsets.get? o <;> simp

/-- The messages that `poll` does not skip are those the group has not been
given. -/
theorem eligible_eq_candidates (messages : OrdMap Offset Message) {g : GroupState}
    (hagree : g.LeasesAgree) (hbacked : g.LeasesBacked) (now : Nat) :
    eligible messages g now = candidates messages (g.beginPoll now) := by
  rw [eligible, candidates, GroupState.beginPoll_ackWatermark]
  refine congrArg (List.map _) (List.filter_congr fun e _ => ?_)
  rw [Bool.eq_iff_iff, Bool.and_eq_true, ← beginPoll_unleased_iff hagree hbacked, deliverableTo,
    GroupState.beginPoll_ackedAbove]
  simp [OrdMap.contains]

/-- The group a poll works on has the leases it had, or none. -/
theorem groupEntry_leases {t : TopicState} {γ : GroupId} {ts : Nat} {g₀ : GroupState} {n : LeaseId}
    (hshape : TopicShape t) (hnumbered : TopicNumbered n t) (hn : n < u64Max)
    (hentry : groupEntry (sweepAndReclaim t ts) γ (some ts) = some g₀) :
    g₀.LeasesAgree ∧ g₀.LeasesBacked := by
  rcases groupEntry_eq_some hentry with ⟨-, hg₀⟩ | ⟨-, rfl⟩
  · obtain ⟨g, hg, rfl, -⟩ := sweepAndReclaim_sub hg₀
    have hsame := GroupState.stamp_leasedOffsets g ts
    exact ⟨(hshape.leases hg).of_maps (GroupState.stamp_inFlight g ts) hsame,
      (hnumbered hn γ g hg).backed.of_maps (GroupState.stamp_inFlight g ts) hsame⟩
  · exact ⟨freshGroup_leases _ _, fun o d h => by cases h⟩

theorem run_eligible {reqs : List AppRequest} {τ : TopicId} {γ : GroupId} {t : TopicState}
    {g₀ : GroupState} {ts : Nat} (hcounter : (({} : Queue).run reqs).nextLeaseId < u64Max)
    (ht : (({} : Queue).run reqs).topics.get? τ = some t)
    (hentry : groupEntry (sweepAndReclaim t ts) γ (some ts) = some g₀) :
    eligible (sweepAndReclaim t ts).messages g₀ ts =
      candidates (sweepAndReclaim t ts).messages (g₀.beginPoll ts) := by
  obtain ⟨hagree, hbacked⟩ :=
    groupEntry_leases (run_shape reqs τ t ht) (run_numbered reqs τ t ht) hcounter hentry
  exact eligible_eq_candidates _ hagree hbacked ts

/-- The topic after one plain produce. -/
def oneMessage : TopicState := (produceTopic {} plainItem).1

/-- An empty queue whose lease counter stands at `n`. -/
def countingQueue (n : LeaseId) : Queue := { nextLeaseId := n }

theorem countingQueue_produce (n : LeaseId) :
    ((countingQueue n).apply plainProduce).1 = (countingQueue n).putTopic "t" oneMessage := by
  have hcheck : (countingQueue n).checkProduce [plainItem] = .ok () := rfl
  exact congrArg Prod.fst (Queue.apply_produce_ok hcheck)

/-- As long as the lease counter has not run out, a poll hands out what the
sorting reference selects from the messages the group has not been given,
and leases exactly that. It numbers it with the next lease ids, none of
them delivered before, if there are so many. -/
theorem poll_matches_reference (reqs : List AppRequest) {τ : TopicId} {γ : GroupId}
    {t : TopicState} {g₀ : GroupState} (max vis ts : Nat)
    (hcounter : (({} : Queue).run reqs).nextLeaseId < u64Max)
    (ht : (({} : Queue).run reqs).topics.get? τ = some t)
    (hentry : groupEntry (sweepAndReclaim t ts) γ (some ts) = some g₀) :
    let q := ({} : Queue).run reqs
    let c := eligible (sweepAndReclaim t ts).messages g₀ ts
    let items := (q.poll τ γ max vis ts).2
    items.map (·.offset) = referenceSelection c max g₀.pollCount ∧
    items.length = min max c.length ∧ (items.map (·.offset)).Nodup ∧
    (∀ x ∈ items, (x.priority, x.offset) ∈ c) ∧
    (q.nextLeaseId + items.length ≤ u64Max + 1 →
      items.map (·.leaseId) = List.range' q.nextLeaseId items.length ∧
      ∀ x ∈ items, ∀ id ∈ ({} : Queue).leaseIds reqs, id < x.leaseId) ∧
    ∃ t' g', (q.poll τ γ max vis ts).1.topics.get? τ = some t' ∧ t'.groups.get? γ = some g' ∧
      ∀ o, g'.leasedOffsets.get? o = if o ∈ items.map (·.offset) then
        some (satAdd ts (min vis maxVisibilityMs)) else (g₀.beginPoll ts).leasedOffsets.get? o := by
  intro q c items
  have hc : c = candidates (sweepAndReclaim t ts).messages (g₀.beginPoll ts) :=
    run_eligible hcounter ht hentry
  obtain ⟨r, hr, hpoll⟩ := poll_entered max vis ts ht hentry
  have hitems : items = r.2.2 := congrArg Prod.snd hpoll
  have hoffsets : items.map (·.offset) = offsets
      (choose (sweepAndReclaim t ts).messages (g₀.beginPoll ts) max g₀.pollCount) :=
    poll_offsets max vis ts ht hentry
  have hret : ∀ x ∈ choose (sweepAndReclaim t ts).messages (g₀.beginPoll ts) max g₀.pollCount,
      ∃ m, (sweepAndReclaim t ts).messages.get? x.2 = some m :=
    fun x hx => (mem_choose hx).retained
  have hids := (leaseChosen_items (d := satAdd ts (min vis maxVisibilityMs))
    (g := g₀.beginPoll ts) (n := q.nextLeaseId) hret).2
  rw [← hr, ← hitems] at hids
  have hlen : items.length = (choose (sweepAndReclaim t ts).messages (g₀.beginPoll ts) max
      g₀.pollCount).length := by
    have hmap := congrArg List.length hoffsets
    rwa [offsets, List.length_map, List.length_map] at hmap
  refine ⟨?_, ?_, ?_, fun x hx => ?_, fun hroom => ?_, ?_⟩
  · rw [hoffsets, offsets_choose, hc]
  · rw [hlen, length_choose, hc]
  · rw [hoffsets]
    exact choose_nodup ..
  · rw [hitems, hr] at hx
    obtain ⟨hmem, m, hm, hp, -⟩ := mem_leaseChosen hx
    obtain ⟨y, hy, hyx⟩ := List.mem_map.mp hmem
    have hdel := mem_choose hy
    rw [hyx] at hdel
    rw [hc]
    exact mem_candidates.mpr ⟨hdel, m, hm, hp.symm⟩
  · rw [← hlen] at hids
    refine ⟨hids hroom, fun x hx id hid => ?_⟩
    have hx' : x.leaseId ∈ List.range' q.nextLeaseId items.length :=
      hids hroom ▸ List.mem_map_of_mem hx
    obtain ⟨k, hk, hsub⟩ := leaseIds_sublist hcounter
    have hid' := (List.mem_range'_1.mp (hsub.subset hid)).2
    exact (hid'.trans_eq hk.symm).trans_le (List.mem_range'_1.mp hx').1
  · refine ⟨putGroup (sweepAndReclaim t ts) γ r.1, r.1, ?_, OrdMap.get?_insert_self ..,
      fun o => ?_⟩
    · rw [hpoll]
      exact OrdMap.get?_insert_self ..
    · rw [hoffsets, hr]
      split_ifs with ho
      · exact leaseChosen_leasedOffsets_of_mem ho
      · exact leaseChosen_leasedOffsets_of_not_mem ho

def priorityOf (n : Nat) : Priority := ⟨n % 256, Nat.mod_lt n (by decide)⟩

/-- Six messages of mixed priorities, the best of them leased until 1002. -/
def mixedBacklog : List AppRequest :=
  [3, 1, 7, 5, 0, 7].map (fun n => .produce "t" (priorityOf n) .raw [] "" 0 1) ++
    [.poll "t" "g" 1 1000 2]

/-- The other five, with their priorities. -/
def mixedEligible : List Ranked :=
  [(3, 0), (1, 1), (5, 3), (0, 4), (7, 5)].map fun x => (priorityOf x.1, x.2)

/-- Of five eligible messages a poll for four brings the three best and, in
the reserved slot, the earliest of the others. -/
theorem poll_matches_reference_mixed :
    ((({} : Queue).run mixedBacklog).poll "t" "g" 4 1000 500).2.map (·.offset) =
      referenceSelection mixedEligible 4 1 ∧
    ((({} : Queue).run mixedBacklog).poll "t" "g" 4 1000 500).2.map (·.offset) = [5, 3, 0, 1] ∧
    ((({} : Queue).run mixedBacklog).poll "t" "g" 4 1000 500).2.map (·.leaseId) = [1, 2, 3, 4] := by
  have hstate : ((({} : Queue).run mixedBacklog).topics.get? "t").bind (fun t =>
      (groupEntry (sweepAndReclaim t 500) "g" (some 500)).map fun g₀ =>
        (eligible (sweepAndReclaim t 500).messages g₀ 500, g₀.pollCount)) =
      some (mixedEligible, 1) := by
    decide
  obtain ⟨t, ht, hstate⟩ := Option.bind_eq_some_iff.mp hstate
  obtain ⟨g₀, hentry, hstate⟩ := Option.map_eq_some_iff.mp hstate
  obtain ⟨heligible, hcount⟩ := Prod.mk.inj hstate
  have hnext : (({} : Queue).run mixedBacklog).nextLeaseId = 1 := by decide
  have hall := poll_matches_reference mixedBacklog 4 1000 500 (by rw [hnext]; decide) ht hentry
  simp only [heligible, hcount] at hall
  obtain ⟨hoffsets, hlen, -, -, hids, -⟩ := hall
  refine ⟨hoffsets, hoffsets.trans (by decide), ?_⟩
  rw [(hids (by rw [hlen, hnext]; decide)).1, hlen, hnext]
  rfl

/-! ## A counter that has run out -/

/-- Produce a message, lease it, and delete the topic. -/
def burnLease : List AppRequest := [plainProduce, .poll "t" "g" 1 1000 2, .deleteTopic "t"]

theorem countingQueue_burn (n : LeaseId) :
    (countingQueue n).run burnLease = countingQueue (satAdd n 1) := by
  have ht : ((countingQueue n).putTopic "t" oneMessage).topics.get? "t" = some oneMessage :=
    OrdMap.get?_insert_self ..
  have hentry : groupEntry (sweepAndReclaim oneMessage 2) "g" (some 2) =
      some (freshGroup (sweepAndReclaim oneMessage 2) (some 2)) := rfl
  have hchoose : choose (sweepAndReclaim oneMessage 2).messages
      ((freshGroup (sweepAndReclaim oneMessage 2) (some 2)).beginPoll 2) 1 0 = [(.default, 0)] := by
    decide
  obtain ⟨r, hr, hpoll⟩ := poll_entered 1 1000 2 ht hentry
  have hpolled : (((countingQueue n).putTopic "t" oneMessage).apply (.poll "t" "g" 1 1000 2)).1 =
      (((countingQueue n).putTopic "t" oneMessage).poll "t" "g" 1 1000 2).1 := rfl
  rw [burnLease, Queue.run_cons, countingQueue_produce, Queue.run_cons, hpolled, hpoll]
  have hnext : r.2.1 = satAdd n 1 := by
    rw [hr, show (freshGroup (sweepAndReclaim oneMessage 2) (some 2)).pollCount = 0 from rfl,
      hchoose]
    rfl
  rw [hnext]
  refine congrArg (Queue.mk · (satAdd n 1)) (OrdMap.ext_get? fun σ => ?_)
  rw [OrdMap.get?_erase]
  split_ifs with hσ
  · rfl
  · simp only [Queue.putTopic, OrdMap.get?_insert, if_neg hσ]
    rfl

def burnLeases (k : Nat) : List AppRequest := (List.replicate k burnLease).flatten

theorem countingQueue_burns (k n : Nat) (h : n + k ≤ u64Max) :
    (countingQueue n).run (burnLeases k) = countingQueue (n + k) := by
  induction k generalizing n with
  | zero => rfl
  | succ k ih =>
      rw [burnLeases, List.replicate_succ, List.flatten_cons, Queue.run_append, countingQueue_burn,
        satAdd_one_of_lt (by omega)]
      exact (ih (n + 1) (by omega)).trans (by rw [Nat.add_right_comm, Nat.add_assoc])

/-- Two messages leased under the last id, and the ack of that id. -/
def sharedLease : List AppRequest :=
  burnLeases u64Max ++ [plainProduce, plainProduce, .poll "t" "g" 2 1000 2, .ack "t" "g" u64Max]

theorem run_burnLeases : ({} : Queue).run (burnLeases u64Max) = countingQueue u64Max :=
  (countingQueue_burns u64Max 0 (Nat.zero_add _).le).trans (by rw [Nat.zero_add])

/-- With the counter at the last `u64`, two messages are leased under one
id. The second lease overwrites the first, so nothing expires it: at 2000
the first message is eligible, and no poll brings it. -/
theorem two_leases_one_id :
    ((({} : Queue).run (burnLeases u64Max ++ [plainProduce, plainProduce])).poll "t" "g" 2 1000
      2).2.map (·.leaseId) = [u64Max, u64Max] ∧
    ((({} : Queue).run sharedLease).topics.get? "t").bind (fun t =>
      (groupEntry (sweepAndReclaim t 2000) "g" (some 2000)).map fun g₀ =>
        eligible (sweepAndReclaim t 2000).messages g₀ 2000) = some [(.default, 0)] ∧
    ((({} : Queue).run sharedLease).poll "t" "g" 1 1000 2000).2 = [] := by
  rw [sharedLease, Queue.run_append, Queue.run_append, run_burnLeases]
  decide

end HermesMq
