import Mathlib.Data.List.Induction
import Mathlib.Data.List.Sort

/-!
# The greatest elements of a list in one pass

A bounded heap that drops its least element on overflow, kept as the
ascending list of its elements. Fed a list, it ends with the greatest `k`
of it (`foldl_keepGreatest`), which are the first `k` in the descending
order (`reverse_foldl_keepGreatest`).
-/

namespace TopK

variable {α : Type} (r : α → α → Prop) [DecidableRel r]

/-- Insert `x`; of more than `k` elements drop the least. -/
def keepGreatest (k : Nat) (top : List α) (x : α) : List α :=
  let top := top.orderedInsert r x
  if top.length > k then top.tail else top

theorem orderedInsert_of_forall {x : α} {l : List α} (h : ∀ b ∈ l, r x b) :
    l.orderedInsert r x = x :: l := by
  cases l with
  | nil => rfl
  | cons b l => exact List.orderedInsert_cons_of_le r l (h b List.mem_cons_self)

/-- Dropping one more after an insertion is inserting after the drop, and
dropping the least of that. -/
theorem drop_orderedInsert [IsTrans α r] (x : α) {s : List α} (hs : s.Pairwise r) (j : Nat) :
    (s.orderedInsert r x).drop (j + 1) = ((s.drop j).orderedInsert r x).tail := by
  induction s generalizing j with
  | nil => rw [List.drop_nil, List.orderedInsert_nil, List.tail_cons, List.drop_succ_cons,
      List.drop_nil]
  | cons b t ih =>
      cases j with
      | zero => rw [List.drop_zero, List.drop_one]
      | succ j =>
          obtain ⟨hb, ht⟩ := List.pairwise_cons.mp hs
          rw [List.drop_succ_cons, List.orderedInsert_cons]
          split_ifs with hxb
          · -- `x` goes below all that is kept, and is the one dropped
            have hall : ∀ c ∈ t.drop j, r x c := fun c hc =>
              IsTrans.trans _ _ _ hxb (hb c (List.mem_of_mem_drop hc))
            rw [orderedInsert_of_forall r hall]
            rfl
          · exact ih ht j

theorem keepGreatest_drop [IsTrans α r] (k : Nat) (x : α) {s : List α} (hs : s.Pairwise r) :
    keepGreatest r k (s.drop (s.length - k)) x =
      (s.orderedInsert r x).drop (s.length + 1 - k) := by
  unfold keepGreatest
  simp only [List.orderedInsert_length, List.length_drop]
  split_ifs with hlen
  · rw [show s.length + 1 - k = s.length - k + 1 by omega, drop_orderedInsert r x hs]
  · rw [show s.length - k = 0 by omega, show s.length + 1 - k = 0 by omega, List.drop_zero,
      List.drop_zero]

theorem foldl_keepGreatest [Std.Total r] [IsTrans α r] (k : Nat) (l : List α) :
    l.foldl (keepGreatest r k) [] = (l.reverse.insertionSort r).drop (l.length - k) := by
  induction l using List.reverseRecOn with
  | nil => exact List.drop_nil.symm
  | append_singleton l x ih =>
      have hstep := keepGreatest_drop r k x (List.pairwise_insertionSort r l.reverse)
      rw [List.length_insertionSort, List.length_reverse] at hstep
      rw [List.foldl_concat, ih, hstep, List.reverse_concat, List.insertionSort_cons,
        List.length_append, List.length_singleton]

/-- In a linear order, with `s` the descending one: the heap's contents from
the top down. -/
theorem reverse_foldl_keepGreatest [Std.Total r] [IsTrans α r] {s : α → α → Prop}
    [DecidableRel s] [Std.Total s] [IsTrans α s] [Std.Antisymm s] (hs : ∀ a b, r a b → s b a)
    (k : Nat) (l : List α) :
    (l.foldl (keepGreatest r k) []).reverse = (l.insertionSort s).take k := by
  have hsorted : (l.reverse.insertionSort r).reverse.Pairwise s :=
    List.pairwise_reverse.mpr ((List.pairwise_insertionSort r l.reverse).imp (hs _ _))
  have hperm : (l.reverse.insertionSort r).reverse.Perm (l.insertionSort s) :=
    ((List.reverse_perm _).trans (List.perm_insertionSort r _)).trans
      ((List.reverse_perm l).trans (List.perm_insertionSort _ l).symm)
  rw [foldl_keepGreatest, ← hperm.eq_of_pairwise' hsorted (List.pairwise_insertionSort s l),
    List.take_reverse, List.length_insertionSort, List.length_reverse]

end TopK
