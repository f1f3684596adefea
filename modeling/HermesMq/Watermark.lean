import Mathlib.Data.Finset.Basic
import Mathlib.Order.Interval.Set.LinearOrder
import Mathlib.Order.SuccPred.Basic

/-!
# Sets with a watermark

A set that has everything below a watermark, and finitely many elements
besides, is kept as the watermark and those elements. The form is canonical
when the elements are strictly above the watermark: then the watermark is
the least element the set lacks (`Canonical.isLeast`), and a set has one
form only (`Canonical.eq_of_denote`). A set that lists its own watermark is
brought closer to that form by moving the watermark over it, which leaves
the set as it is (`denote_succ_erase`).
-/

namespace Watermark

variable {α : Type} [LinearOrder α] {w w' b : α} {s s' : Finset α}

/-- The set that a watermark and a list of elements stand for. -/
def denote (w : α) (s : Finset α) : Set α := Set.Iio w ∪ s

/-- Only elements above the watermark are listed. -/
def Canonical (w : α) (s : Finset α) : Prop := ∀ o ∈ s, w < o

theorem mem_denote {o : α} : o ∈ denote w s ↔ o < w ∨ o ∈ s := Iff.rfl

theorem denote_subset_Iio : denote w s ⊆ Set.Iio b ↔ w ≤ b ∧ ∀ o ∈ s, o < b := by
  rw [denote, Set.union_subset_iff, Set.Iio_subset_Iio_iff]
  rfl

theorem Canonical.isLeast (h : Canonical w s) : IsLeast (denote w s)ᶜ w := by
  constructor
  · rintro (hlt | hmem)
    · exact lt_irrefl w hlt
    · exact lt_irrefl w (h w hmem)
  · intro o ho
    exact not_lt.mp fun hlt => ho (Or.inl hlt)

theorem Canonical.mem_of_denote_subset (h : Canonical w s) (hsub : denote w s ⊆ denote w s')
    {o : α} (ho : o ∈ s) : o ∈ s' :=
  (hsub (Or.inr ho)).resolve_left (h o ho).not_gt

/-- A set has one canonical form. -/
theorem Canonical.eq_of_denote (h : Canonical w s) (h' : Canonical w' s')
    (heq : denote w s = denote w' s') : w = w' ∧ s = s' := by
  have hleast := h.isLeast
  rw [heq] at hleast
  obtain rfl : w = w' := hleast.unique h'.isLeast
  refine ⟨rfl, Finset.ext fun o => ⟨?_, ?_⟩⟩
  · exact h.mem_of_denote_subset heq.subset
  · exact h'.mem_of_denote_subset heq.superset

/-- The watermark may move over an element of the list. -/
theorem denote_succ_erase [SuccOrder α] [NoMaxOrder α] (h : w ∈ s) :
    denote (Order.succ w) (s.erase w) = denote w s := by
  ext o
  rw [mem_denote, mem_denote, Order.lt_succ_iff, Finset.mem_erase, le_iff_lt_or_eq]
  constructor
  · rintro ((hlt | rfl) | ⟨-, ho⟩)
    · exact Or.inl hlt
    · exact Or.inr h
    · exact Or.inr ho
  · rintro (hlt | ho)
    · exact Or.inl (Or.inl hlt)
    · rcases eq_or_ne o w with heq | hne
      · exact Or.inl (Or.inr heq)
      · exact Or.inr ⟨hne, ho⟩

end Watermark
