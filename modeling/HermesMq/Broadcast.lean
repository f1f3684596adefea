import HermesMq.OrdMap

/-!
# Calls to those who wait

Somebody who waits for a change takes the cell of the key it is about,
signs up there, looks, and sleeps until the cell is called. A writer makes
its change first, and then calls the cell of every key that the change is
about. In between others may look, take cells, drop the cells that nobody
holds, and forget a key with its cell.

`Hears` is what a waiter can rely on: every change it has not seen is one
that its cell has been called for, or will be. Each rule below is one thing
that somebody does; only a key that is forgotten ends the promise.
-/

/-- Somebody who waits for changes of a key. The last two fields are not
part of any program, they say what the promise is about. -/
structure Waiter (κ ε : Type) where
  key : κ
  cell : Nat
  registered : Bool := false
  told : Bool := false
  /-- The changes made since it looked. -/
  since : Option (List ε) := none
  /-- The key was forgotten after it took the cell. -/
  orphaned : Bool := false

namespace Waiter

variable {κ ε : Type} [LinearOrder κ]

def register (w : Waiter κ ε) : Waiter κ ε := { w with registered := true }

def look (w : Waiter κ ε) : Waiter κ ε := { w with since := some [] }

def note (e : ε) (w : Waiter κ ε) : Waiter κ ε := { w with since := w.since.map (· ++ [e]) }

/-- The cells of the keys are called. -/
def hear (cells : OrdMap κ Nat) (keys : List κ) (w : Waiter κ ε) : Waiter κ ε :=
  if w.registered ∧ ∃ k ∈ keys, cells.get? k = some w.cell then { w with told := true } else w

def orphan (key : κ) (w : Waiter κ ε) : Waiter κ ε :=
  if w.key = key then { w with orphaned := true } else w

@[simp] theorem hear_key (cells : OrdMap κ Nat) (keys : List κ) (w : Waiter κ ε) :
    (w.hear cells keys).key = w.key := by
  rw [hear]
  split <;> rfl

@[simp] theorem hear_since (cells : OrdMap κ Nat) (keys : List κ) (w : Waiter κ ε) :
    (w.hear cells keys).since = w.since := by
  rw [hear]
  split <;> rfl

@[simp] theorem hear_registered (cells : OrdMap κ Nat) (keys : List κ) (w : Waiter κ ε) :
    (w.hear cells keys).registered = w.registered := by
  rw [hear]
  split <;> rfl

@[simp] theorem hear_cell (cells : OrdMap κ Nat) (keys : List κ) (w : Waiter κ ε) :
    (w.hear cells keys).cell = w.cell := by
  rw [hear]
  split <;> rfl

@[simp] theorem hear_orphaned (cells : OrdMap κ Nat) (keys : List κ) (w : Waiter κ ε) :
    (w.hear cells keys).orphaned = w.orphaned := by
  rw [hear]
  split <;> rfl

@[simp] theorem orphan_since (key : κ) (w : Waiter κ ε) : (w.orphan key).since = w.since := by
  rw [orphan]
  split <;> rfl

end Waiter

section Hears

variable {κ ε : Type} [LinearOrder κ] (about : ε → κ → Prop)

/-- `calls` are the calls that writers have still to make. -/
structure Hears (cells : OrdMap κ Nat) (calls : List (List κ)) (w : Waiter κ ε) : Prop where
  kept : w.orphaned = false → cells.get? w.key = some w.cell
  registered : w.since ≠ none → w.registered = true
  heard : w.orphaned = false → w.told = false → ∀ es, w.since = some es →
    ∀ e ∈ es, about e w.key → ∃ keys ∈ calls, w.key ∈ keys

namespace Hears

variable {about} {cells cells' : OrdMap κ Nat} {calls : List (List κ)} {w : Waiter κ ε}

/-- It has taken its cell. -/
theorem take {key : κ} {cell : Nat} (h : cells.get? key = some cell) :
    Hears about cells calls ({ key := key, cell := cell } : Waiter κ ε) where
  kept _ := h
  registered hsince := absurd rfl hsince
  heard _ _ es hes := by cases hes

variable (h : Hears about cells calls w)
include h

/-- Cells come and go, its own stays. -/
theorem cells_change (hcells : ∀ c, cells.get? w.key = some c → w.cell = c →
    cells'.get? w.key = some c) : Hears about cells' calls w :=
  { h with kept := fun ho => hcells _ (h.kept ho) rfl }

theorem more_calls {calls' : List (List κ)} (hcalls : ∀ ks ∈ calls, ks ∈ calls') :
    Hears about cells calls' w :=
  { h with heard := fun ho ht es hes e he habout =>
      (h.heard ho ht es hes e he habout).imp fun ks hks => hks.imp_left (hcalls ks) }

theorem register : Hears about cells calls w.register :=
  { h with registered := fun _ => rfl }

theorem look (hregistered : w.registered = true) : Hears about cells calls w.look where
  kept := h.kept
  registered _ := hregistered
  heard _ _ es hes e he := by
    cases hes
    cases he

/-- A change, and the call that its writer owes for it. -/
theorem note {e : ε} {more : List (List κ)}
    (hmore : about e w.key → ∃ keys ∈ more, w.key ∈ keys) :
    Hears about cells (calls ++ more) (w.note e) where
  kept := h.kept
  registered hsince := h.registered fun hnone => hsince (by rw [Waiter.note, hnone]; rfl)
  heard ho ht es hes e' he' habout := by
    obtain ⟨es₀, hes₀, rfl⟩ := Option.map_eq_some_iff.mp hes
    rcases List.mem_append.mp he' with hold | hnew
    · obtain ⟨keys, hkeys, hmem⟩ := h.heard ho ht es₀ hes₀ e' hold habout
      exact ⟨keys, List.mem_append_left _ hkeys, hmem⟩
    · rw [List.mem_singleton.mp hnew] at habout
      obtain ⟨keys, hkeys, hmem⟩ := hmore habout
      exact ⟨keys, List.mem_append_right _ hkeys, hmem⟩

/-- A writer makes its call: whoever has waited for it is told. -/
theorem hear {keys : List κ} {calls' : List (List κ)}
    (hcalls : ∀ ks ∈ calls, ks = keys ∨ ks ∈ calls') :
    Hears about cells calls' (w.hear cells keys) where
  kept := by simpa using h.kept
  registered := by simpa using h.registered
  heard ho ht es hes e he habout := by
    rw [Waiter.hear_orphaned] at ho
    rw [Waiter.hear_since] at hes
    rw [Waiter.hear_key] at habout ⊢
    have hreg : w.registered = true := h.registered (by rw [hes]; exact Option.some_ne_none _)
    have hmiss : ¬∃ k ∈ keys, cells.get? k = some w.cell := by
      intro hk
      rw [Waiter.hear, if_pos ⟨hreg, hk⟩] at ht
      cases ht
    rw [Waiter.hear, if_neg fun hk => hmiss hk.2] at ht
    obtain ⟨ks, hks, hmem⟩ := h.heard ho ht es hes e he habout
    rcases hcalls ks hks with rfl | hks'
    · exact absurd ⟨w.key, hmem, h.kept ho⟩ hmiss
    · exact ⟨ks, hks', hmem⟩

theorem told_of_hear (horphaned : w.orphaned = false) (hlooked : w.since ≠ none) {keys : List κ}
    (hmem : w.key ∈ keys) : (w.hear cells keys).told = true := by
  rw [Waiter.hear, if_pos ⟨h.registered hlooked, w.key, hmem, h.kept horphaned⟩]

/-- A key is forgotten. -/
theorem orphan (key : κ) : Hears about (cells.erase key) calls (w.orphan key) := by
  rw [Waiter.orphan]
  split_ifs with hkey
  · exact ⟨nofun, h.registered, nofun⟩
  · refine h.cells_change fun c hc _ => ?_
    rwa [OrdMap.get?_erase, if_neg hkey]

end Hears

end Hears
