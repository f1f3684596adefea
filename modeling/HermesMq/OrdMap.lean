import Mathlib.Data.List.Nodup
import Mathlib.Data.List.Perm.Subperm
import Mathlib.Data.Nat.Basic
import Mathlib.Order.Lattice

/-!
# Ordered maps

A finite map over a linearly ordered key type, kept as the list of its
entries in strictly increasing key order. The order is a field, so two
maps with the same lookups are the same map (`OrdMap.ext_get?`) and
iteration order is determined by the contents.

Every operation comes with its effect on lookups (`get?_insert`,
`get?_erase`, `get?_filter`, `get?_mapVals`), and proofs about programs
that use a map go through those equations only: the entry list is
looked at again just for sizes and for the two ends of the map.
-/

/-- A finite map: entries in strictly increasing key order. -/
structure OrdMap (K V : Type) [LinearOrder K] where
  entries : List (K × V)
  sorted : entries.Pairwise (fun a b => a.1 < b.1)

namespace OrdMap

variable {K V W : Type} [LinearOrder K]

/-! ## Entry lists -/

/-- Insertion into an ordered entry list, replacing an entry of the
same key. -/
def insertEntry (k : K) (v : V) : List (K × V) → List (K × V)
  | [] => [(k, v)]
  | e :: rest =>
      if k < e.1 then (k, v) :: e :: rest
      else if k = e.1 then (k, v) :: rest
      else e :: insertEntry k v rest

theorem mem_insertEntry {k : K} {v : V} {l : List (K × V)}
    (h : l.Pairwise (fun a b => a.1 < b.1)) {e : K × V} :
    e ∈ insertEntry k v l ↔ e = (k, v) ∨ (e ∈ l ∧ e.1 ≠ k) := by
  induction l with
  | nil => simp [insertEntry]
  | cons x rest ih =>
      rw [List.pairwise_cons] at h
      obtain ⟨hx, hrest⟩ := h
      rw [insertEntry]
      split_ifs with hlt heq
      · have hne : ∀ y ∈ x :: rest, y.1 ≠ k := by
          intro y hy
          rcases List.mem_cons.mp hy with rfl | hy
          · exact ne_of_gt hlt
          · exact ne_of_gt (lt_trans hlt (hx y hy))
        rw [List.mem_cons]
        exact or_congr_right ⟨fun hm => ⟨hm, hne e hm⟩, And.left⟩
      · have hne : ∀ y ∈ rest, y.1 ≠ k := fun y hy =>
          heq ▸ ne_of_gt (hx y hy)
        simp only [List.mem_cons]
        constructor
        · rintro (rfl | hm)
          · exact Or.inl rfl
          · exact Or.inr ⟨Or.inr hm, hne e hm⟩
        · rintro (rfl | ⟨rfl | hm, hk⟩)
          · exact Or.inl rfl
          · exact absurd heq.symm hk
          · exact Or.inr hm
      · simp only [List.mem_cons, ih hrest]
        constructor
        · rintro (rfl | rfl | ⟨hm, hk⟩)
          · exact Or.inr ⟨Or.inl rfl, Ne.symm heq⟩
          · exact Or.inl rfl
          · exact Or.inr ⟨Or.inr hm, hk⟩
        · rintro (rfl | ⟨rfl | hm, hk⟩)
          · exact Or.inr (Or.inl rfl)
          · exact Or.inl rfl
          · exact Or.inr (Or.inr ⟨hm, hk⟩)

theorem insertEntry_sorted {k : K} {v : V} {l : List (K × V)}
    (h : l.Pairwise (fun a b => a.1 < b.1)) :
    (insertEntry k v l).Pairwise (fun a b => a.1 < b.1) := by
  induction l with
  | nil => simp [insertEntry]
  | cons x rest ih =>
      have hall := h
      rw [List.pairwise_cons] at h
      obtain ⟨hx, hrest⟩ := h
      rw [insertEntry]
      split_ifs with hlt heq
      · refine List.pairwise_cons.mpr ⟨fun y hy => ?_, hall⟩
        rcases List.mem_cons.mp hy with rfl | hy
        · exact hlt
        · exact lt_trans hlt (hx y hy)
      · exact List.pairwise_cons.mpr ⟨fun y hy => heq ▸ hx y hy, hrest⟩
      · refine List.pairwise_cons.mpr ⟨fun y hy => ?_, ih hrest⟩
        rcases (mem_insertEntry hrest).mp hy with rfl | ⟨hy, -⟩
        · exact lt_of_le_of_ne (not_lt.mp hlt) (Ne.symm heq)
        · exact hx y hy

/-! ## Operations -/

def empty : OrdMap K V := ⟨[], List.Pairwise.nil⟩

instance : EmptyCollection (OrdMap K V) := ⟨empty⟩

instance : Inhabited (OrdMap K V) := ⟨empty⟩

def get? (m : OrdMap K V) (k : K) : Option V :=
  (m.entries.find? fun e => e.1 = k).map Prod.snd

def contains (m : OrdMap K V) (k : K) : Bool := (m.get? k).isSome

def insert (m : OrdMap K V) (k : K) (v : V) : OrdMap K V :=
  ⟨insertEntry k v m.entries, insertEntry_sorted m.sorted⟩

/-- Keep the entries satisfying `p`. -/
def filter (m : OrdMap K V) (p : K → V → Bool) : OrdMap K V :=
  ⟨m.entries.filter fun e => p e.1 e.2, m.sorted.filter _⟩

def erase (m : OrdMap K V) (k : K) : OrdMap K V :=
  m.filter fun k' _ => k' ≠ k

/-- The part of the map at or above `k`. -/
def splitOff (m : OrdMap K V) (k : K) : OrdMap K V :=
  m.filter fun k' _ => k ≤ k'

/-- The keys removed one after the other. -/
def eraseAll (m : OrdMap K V) (ks : List K) : OrdMap K V := ks.foldl erase m

/-- The entries with a key from `start` up to `stop`, which is excluded. -/
def range (m : OrdMap K V) (start stop : K) : OrdMap K V :=
  m.filter fun k _ => start ≤ k ∧ k < stop

def mapVals (m : OrdMap K V) (f : K → V → W) : OrdMap K W :=
  ⟨m.entries.map fun e => (e.1, f e.1 e.2),
    List.pairwise_map.mpr (m.sorted.imp fun h => h)⟩

def size (m : OrdMap K V) : Nat := m.entries.length

def keys (m : OrdMap K V) : List K := m.entries.map Prod.fst

def values (m : OrdMap K V) : List V := m.entries.map Prod.snd

def firstKey? (m : OrdMap K V) : Option K := m.keys.head?

def lastKey? (m : OrdMap K V) : Option K := m.keys.getLast?

/-- The value of `k`, if there is one, replaced by `f` of it. -/
def modify (m : OrdMap K V) (k : K) (f : V → V) : OrdMap K V :=
  match m.get? k with
  | none => m
  | some v => m.insert k (f v)

/-- The entries inserted one after the other, later ones replacing
earlier ones of the same key. -/
def insertAll (m : OrdMap K V) (l : List (K × V)) : OrdMap K V :=
  l.foldl (fun m e => m.insert e.1 e.2) m

def ofList (l : List (K × V)) : OrdMap K V := (∅ : OrdMap K V).insertAll l

instance [DecidableEq V] : DecidableEq (OrdMap K V) := fun a b =>
  decidable_of_iff (a.entries = b.entries)
    ⟨fun h => by cases a; cases b; cases h; rfl, fun h => h ▸ rfl⟩

/-! ## Lookups -/

theorem keys_sorted (m : OrdMap K V) : m.keys.Pairwise (· < ·) :=
  List.pairwise_map.mpr m.sorted

theorem keys_nodup (m : OrdMap K V) : m.keys.Nodup :=
  m.keys_sorted.imp ne_of_lt

theorem key_unique {m : OrdMap K V} {a b : K × V} (ha : a ∈ m.entries)
    (hb : b ∈ m.entries) (h : a.1 = b.1) : a = b :=
  List.inj_on_of_nodup_map m.keys_nodup ha hb h

theorem get?_eq_some {m : OrdMap K V} {k : K} {v : V} :
    m.get? k = some v ↔ (k, v) ∈ m.entries := by
  simp only [get?, Option.map_eq_some_iff]
  constructor
  · rintro ⟨⟨k', v'⟩, hfind, rfl⟩
    have hk : k' = k := by simpa using List.find?_some hfind
    exact hk ▸ List.mem_of_find?_eq_some hfind
  · intro hm
    cases hf : m.entries.find? (fun e => decide (e.1 = k)) with
    | none => simpa using List.find?_eq_none.mp hf _ hm
    | some e =>
        have hk : e.1 = k := by simpa using List.find?_some hf
        refine ⟨e, rfl, ?_⟩
        rw [key_unique (List.mem_of_find?_eq_some hf) hm hk]

theorem ext_get? {m m' : OrdMap K V} (h : ∀ k, m.get? k = m'.get? k) :
    m = m' := by
  have hnd : ∀ n : OrdMap K V, n.entries.Nodup := fun n =>
    n.sorted.imp fun hlt heq => absurd (congrArg Prod.fst heq) (ne_of_lt hlt)
  have hperm : m.entries.Perm m'.entries := by
    refine (List.perm_ext_iff_of_nodup (hnd m) (hnd m')).mpr fun e => ?_
    rw [← get?_eq_some, ← get?_eq_some, h]
  have hentries : m.entries = m'.entries :=
    hperm.eq_of_pairwise (fun _ _ _ _ hab hba => absurd hab (lt_asymm hba))
      m.sorted m'.sorted
  cases m; cases m'; cases hentries; rfl

@[simp] theorem get?_empty (k : K) : (∅ : OrdMap K V).get? k = none := rfl

theorem get?_insert (m : OrdMap K V) (k k' : K) (v : V) :
    (m.insert k v).get? k' = if k' = k then some v else m.get? k' := by
  have hmem : ∀ w, (m.insert k v).get? k' = some w ↔
      (k' = k ∧ w = v) ∨ (m.get? k' = some w ∧ k' ≠ k) := fun w => by
    rw [get?_eq_some, get?_eq_some, insert, mem_insertEntry m.sorted,
      Prod.mk.injEq]
  ext w
  rw [hmem]
  split_ifs with hk
  · simp [hk, eq_comm]
  · simp [hk]

@[simp] theorem get?_insert_self (m : OrdMap K V) (k : K) (v : V) :
    (m.insert k v).get? k = some v := by
  rw [get?_insert, if_pos rfl]

theorem get?_insert_ne (m : OrdMap K V) {k k' : K} (v : V) (h : k' ≠ k) :
    (m.insert k v).get? k' = m.get? k' := by
  rw [get?_insert, if_neg h]

@[simp] theorem get?_filter (m : OrdMap K V) (p : K → V → Bool) (k : K) :
    (m.filter p).get? k = (m.get? k).filter (p k) := by
  ext w
  rw [get?_eq_some, Option.filter_eq_some_iff, get?_eq_some]
  simp [filter]

theorem get?_filter_eq_some {m : OrdMap K V} {p : K → V → Bool} {k : K} {v : V} :
    (m.filter p).get? k = some v ↔ m.get? k = some v ∧ p k v := by
  rw [get?_filter, Option.filter_eq_some_iff]

@[simp] theorem get?_erase (m : OrdMap K V) (k k' : K) :
    (m.erase k).get? k' = if k' = k then none else m.get? k' := by
  rw [erase, get?_filter]
  split_ifs with hk
  · cases m.get? k' <;> simp [Option.filter, hk]
  · cases m.get? k' <;> simp [Option.filter, hk]

@[simp] theorem get?_mapVals (m : OrdMap K V) (f : K → V → W) (k : K) :
    (m.mapVals f).get? k = (m.get? k).map (f k) := by
  ext w
  rw [get?_eq_some, Option.map_eq_some_iff]
  simp only [mapVals, List.mem_map, Prod.mk.injEq]
  constructor
  · rintro ⟨⟨k', v⟩, hm, rfl, rfl⟩
    exact ⟨v, get?_eq_some.mpr hm, rfl⟩
  · rintro ⟨v, hv, rfl⟩
    exact ⟨(k, v), get?_eq_some.mp hv, rfl, rfl⟩

theorem get?_modify (m : OrdMap K V) (k k' : K) (f : V → V) :
    (m.modify k f).get? k' = (m.get? k').map fun v => if k' = k then f v else v := by
  unfold modify
  split
  · rename_i hnone
    by_cases hk : k' = k
    · rw [hk, hnone]
      rfl
    · simp [hk]
  · rename_i v hv
    rw [get?_insert]
    by_cases hk : k' = k
    · rw [if_pos hk, hk, hv]
      simp
    · simp [hk]

theorem modify_congr {m : OrdMap K V} {k : K} {f g : V → V}
    (h : ∀ v, m.get? k = some v → f v = g v) : m.modify k f = m.modify k g := by
  unfold modify
  split
  · rfl
  · rename_i v hv
    rw [h v hv]

theorem modify_id (m : OrdMap K V) (k : K) : (m.modify k fun v => v) = m := by
  refine ext_get? fun k' => ?_
  simp [get?_modify]

theorem modify_modify (m : OrdMap K V) (k : K) (f g : V → V) :
    (m.modify k f).modify k g = m.modify k fun v => g (f v) := by
  refine ext_get? fun k' => ?_
  simp only [get?_modify, Option.map_map, Function.comp_def]
  congr 1
  funext v
  split_ifs <;> rfl

/-- Two modifications commute if they do where they meet. -/
theorem modify_comm {m : OrdMap K V} {k k' : K} {f g : V → V}
    (h : k = k' → ∀ v, m.get? k = some v → g (f v) = f (g v)) :
    (m.modify k f).modify k' g = (m.modify k' g).modify k f := by
  refine ext_get? fun x => ?_
  simp only [get?_modify, Option.map_map]
  cases hx : m.get? x with
  | none => rfl
  | some v =>
      simp only [Option.map_some, Function.comp_apply, Option.some.injEq]
      split_ifs with hk' hk hk
      · exact h (hk.symm.trans hk') v (hk ▸ hx)
      all_goals rfl

theorem get?_eraseAll {ks : List K} (m : OrdMap K V) (k : K) :
    (m.eraseAll ks).get? k = if k ∈ ks then none else m.get? k := by
  induction ks generalizing m with
  | nil => simp [eraseAll]
  | cons x rest ih =>
      rw [eraseAll, List.foldl_cons, ← eraseAll, ih, get?_erase]
      by_cases hx : k = x <;> simp [hx]

theorem get?_eraseAll_eq_some {ks : List K} {m : OrdMap K V} {k : K} {v : V} :
    (m.eraseAll ks).get? k = some v ↔ k ∉ ks ∧ m.get? k = some v := by
  rw [get?_eraseAll]
  split_ifs with hk <;> simp [hk]

theorem mapVals_eq_self {m : OrdMap K V} {f : K → V → V}
    (h : ∀ k v, m.get? k = some v → f k v = v) : m.mapVals f = m := by
  refine ext_get? fun k => ?_
  rw [get?_mapVals]
  cases hk : m.get? k with
  | none => rfl
  | some v => rw [Option.map_some, h k v hk]

theorem mapVals_insertAll (f : K → V → W) {l : List (K × V)} (m : OrdMap K V) :
    (m.insertAll l).mapVals f = (m.mapVals f).insertAll (l.map fun p => (p.1, f p.1 p.2)) := by
  induction l generalizing m with
  | nil => rfl
  | cons p rest ih =>
      have hins : (m.insert p.1 p.2).mapVals f = (m.mapVals f).insert p.1 (f p.1 p.2) := by
        refine ext_get? fun k => ?_
        rw [get?_mapVals, get?_insert, get?_insert, get?_mapVals]
        split_ifs with hk
        · rw [hk, Option.map_some]
        · rfl
      rw [insertAll, List.foldl_cons, ← insertAll, ih, hins]
      rfl

theorem mapVals_filter (f : K → V → W) (p : K → Bool) (m : OrdMap K V) :
    (m.filter fun k _ => p k).mapVals f = (m.mapVals f).filter fun k _ => p k := by
  refine ext_get? fun k => ?_
  rw [get?_mapVals, get?_filter, get?_filter, get?_mapVals]
  cases m.get? k with
  | none => rfl
  | some v => by_cases hk : p k <;> simp [Option.filter, hk]

/-- Keeping entries by their values, seen through a map of the values. -/
theorem mapVals_filter_vals {f : K → V → W} {p : K → V → Bool} {q : K → W → Bool}
    {m : OrdMap K V} (h : ∀ k v, m.get? k = some v → p k v = q k (f k v)) :
    (m.filter p).mapVals f = (m.mapVals f).filter q := by
  refine ext_get? fun k => ?_
  rw [get?_mapVals, get?_filter, get?_filter, get?_mapVals]
  cases hk : m.get? k with
  | none => rfl
  | some v =>
      rw [Option.map_some, Option.filter_some, Option.filter_some, h k v hk]
      split_ifs <;> rfl

theorem mapVals_insert (f : K → V → W) (m : OrdMap K V) (k : K) (v : V) :
    (m.insert k v).mapVals f = (m.mapVals f).insert k (f k v) := by
  refine ext_get? fun k' => ?_
  rw [get?_mapVals, get?_insert, get?_insert, get?_mapVals]
  split_ifs with hk
  · rw [hk]
    rfl
  · rfl

theorem mapVals_modify {f : K → V → W} {m : OrdMap K V} {k : K} {g : V → V} {g' : W → W}
    (h : ∀ v, m.get? k = some v → f k (g v) = g' (f k v)) :
    (m.modify k g).mapVals f = (m.mapVals f).modify k g' := by
  refine ext_get? fun k' => ?_
  rw [get?_mapVals, get?_modify, get?_modify, get?_mapVals, Option.map_map, Option.map_map]
  refine Option.map_congr fun v hv => ?_
  simp only [Function.comp_apply]
  split_ifs with hk
  · subst hk
    exact h v hv
  · rfl

theorem get?_splitOff (m : OrdMap K V) (k k' : K) :
    (m.splitOff k).get? k' = if k ≤ k' then m.get? k' else none := by
  rw [splitOff, get?_filter]
  split_ifs with hk <;> cases m.get? k' <;> simp [Option.filter, hk]

theorem get?_range (m : OrdMap K V) (start stop k : K) :
    (m.range start stop).get? k = if start ≤ k ∧ k < stop then m.get? k else none := by
  rw [range, get?_filter]
  by_cases h : start ≤ k ∧ k < stop <;> cases m.get? k <;> simp [h]

theorem contains_iff {m : OrdMap K V} {k : K} :
    m.contains k = true ↔ ∃ v, m.get? k = some v :=
  Option.isSome_iff_exists

theorem contains_eq_false {m : OrdMap K V} {k : K} :
    m.contains k = false ↔ m.get? k = none := by
  simp [contains]

/-! ## Keys and values -/

theorem mem_keys {m : OrdMap K V} {k : K} :
    k ∈ m.keys ↔ ∃ v, m.get? k = some v := by
  simp [keys, get?_eq_some]

theorem mem_values {m : OrdMap K V} {v : V} :
    v ∈ m.values ↔ ∃ k, m.get? k = some v := by
  simp [values, get?_eq_some]

theorem firstKey?_eq_some {m : OrdMap K V} {k : K} :
    m.firstKey? = some k ↔
      (∃ v, m.get? k = some v) ∧ ∀ k' v, m.get? k' = some v → k ≤ k' := by
  have hs := m.keys_sorted
  have hmem : ∀ {k : K}, k ∈ m.keys ↔ ∃ v, m.get? k = some v := mem_keys
  rw [firstKey?]
  constructor
  · intro h
    obtain ⟨rest, hr⟩ := List.head?_eq_some_iff.mp h
    refine ⟨hmem.mp (hr ▸ List.mem_cons_self ..), fun k' v hv => ?_⟩
    have hk' : k' ∈ k :: rest := hr ▸ hmem.mpr ⟨v, hv⟩
    rw [hr, List.pairwise_cons] at hs
    rcases List.mem_cons.mp hk' with rfl | hk'
    · exact le_rfl
    · exact le_of_lt (hs.1 k' hk')
  · rintro ⟨hk, hle⟩
    have hk := hmem.mpr hk
    cases hr : m.keys with
    | nil => rw [hr] at hk; cases hk
    | cons x rest =>
        obtain ⟨v, hv⟩ := hmem.mp (hr ▸ List.mem_cons_self .. : x ∈ m.keys)
        rw [hr, List.pairwise_cons] at hs
        rw [hr] at hk
        rcases List.mem_cons.mp hk with rfl | hk
        · rfl
        · exact absurd (hs.1 k hk) (not_lt.mpr (hle x v hv))

theorem firstKey?_eq_none {m : OrdMap K V} :
    m.firstKey? = none ↔ ∀ k, m.get? k = none := by
  rw [firstKey?, List.head?_eq_none_iff, List.eq_nil_iff_forall_not_mem]
  simp only [mem_keys, not_exists, ← Option.not_isSome_iff_eq_none,
    Option.isSome_iff_exists]

theorem lastKey?_eq_some {m : OrdMap K V} {k : K} :
    m.lastKey? = some k ↔
      (∃ v, m.get? k = some v) ∧ ∀ k' v, m.get? k' = some v → k' ≤ k := by
  have hs := m.keys_sorted
  have hmem : ∀ {k : K}, k ∈ m.keys ↔ ∃ v, m.get? k = some v := mem_keys
  rw [lastKey?]
  constructor
  · intro h
    obtain ⟨front, hr⟩ := List.getLast?_eq_some_iff.mp h
    refine ⟨hmem.mp (hr ▸ by simp), fun k' v hv => ?_⟩
    have hk' : k' ∈ front ++ [k] := hr ▸ hmem.mpr ⟨v, hv⟩
    rw [hr, List.pairwise_append] at hs
    rcases List.mem_append.mp hk' with hk' | hk'
    · exact le_of_lt (hs.2.2 k' hk' k (by simp))
    · exact le_of_eq (List.mem_singleton.mp hk')
  · rintro ⟨hk, hle⟩
    have hk := hmem.mpr hk
    cases hl : m.keys.getLast? with
    | none => rw [List.getLast?_eq_none_iff.mp hl] at hk; cases hk
    | some x =>
        obtain ⟨front, hr⟩ := List.getLast?_eq_some_iff.mp hl
        obtain ⟨v, hv⟩ := hmem.mp (hr ▸ by simp : x ∈ m.keys)
        rw [hr, List.pairwise_append] at hs
        rw [hr] at hk
        rcases List.mem_append.mp hk with hk | hk
        · exact absurd (hs.2.2 k hk x (by simp)) (not_lt.mpr (hle x v hv))
        · rw [List.mem_singleton.mp hk]

theorem lastKey?_eq_none {m : OrdMap K V} :
    m.lastKey? = none ↔ ∀ k, m.get? k = none := by
  rw [← firstKey?_eq_none, lastKey?, firstKey?, List.getLast?_eq_none_iff,
    List.head?_eq_none_iff]

theorem values_mapVals (m : OrdMap K V) (f : V → W) :
    (m.mapVals fun _ v => f v).values = m.values.map f := by
  rw [values, values, mapVals, List.map_map, List.map_map]
  rfl

theorem lastKey?_mapVals (m : OrdMap K V) (f : K → V → W) :
    (m.mapVals f).lastKey? = m.lastKey? := by
  rw [lastKey?, lastKey?, keys, keys, mapVals, List.map_map]
  rfl

/-- The greatest key of one map laid over another. -/
theorem max?_lastKeys {m a b : OrdMap Nat V} (h : ∀ k, m.get? k = (b.get? k).or (a.get? k)) :
    (a.lastKey?.toList ++ b.lastKey?.toList).max? = m.lastKey? := by
  have hiff : ∀ k, (∃ v, m.get? k = some v) ↔
      (∃ v, a.get? k = some v) ∨ ∃ v, b.get? k = some v := fun k => by
    rw [h]
    cases b.get? k <;> simp
  cases hm : m.lastKey? with
  | none =>
      rw [lastKey?_eq_none] at hm
      have hnone : a.lastKey? = none ∧ b.lastKey? = none := by
        simp only [lastKey?_eq_none, ← forall_and]
        intro k
        have hk := h k
        rw [hm k, eq_comm, Option.or_eq_none_iff] at hk
        exact hk.symm
      simp [hnone]
  | some k =>
      obtain ⟨hk, hle⟩ := lastKey?_eq_some.mp hm
      have hbound : ∀ k', (∃ v, a.get? k' = some v) ∨ (∃ v, b.get? k' = some v) → k' ≤ k :=
        fun k' hk' => ((hiff k').mpr hk').elim (hle k')
      rw [List.max?_eq_some_iff]
      simp only [List.mem_append, Option.mem_toList]
      refine ⟨((hiff k).mp hk).imp (fun ha => ?_) fun hb => ?_, fun k' hk' => hbound k' ?_⟩
      · exact lastKey?_eq_some.mpr ⟨ha, fun k' v hv => hbound k' (Or.inl ⟨v, hv⟩)⟩
      · exact lastKey?_eq_some.mpr ⟨hb, fun k' v hv => hbound k' (Or.inr ⟨v, hv⟩)⟩
      · exact hk'.imp (fun ha => (lastKey?_eq_some.mp ha).1) fun hb => (lastKey?_eq_some.mp hb).1

/-- A range of one key. -/
theorem head?_range_succ (m : OrdMap Nat V) (i : Nat) :
    (m.range i (i + 1)).entries.head?.map Prod.snd = m.get? i := by
  cases hentries : (m.range i (i + 1)).entries with
  | nil =>
      have hself : (m.range i (i + 1)).get? i = m.get? i := by
        rw [get?_range, if_pos ⟨le_rfl, Nat.lt_succ_self i⟩]
      rw [← hself, get?, hentries]
      rfl
  | cons p rest =>
      have hp : (m.range i (i + 1)).get? p.1 = some p.2 :=
        get?_eq_some.mpr (hentries ▸ List.mem_cons_self)
      rw [get?_range] at hp
      obtain ⟨hi, hp⟩ := Option.ite_none_right_eq_some.mp hp
      obtain heq : p.1 = i := by omega
      rw [← heq, hp]
      rfl

/-! ## Sizes -/

theorem length_insertEntry (k : K) (v : V) (l : List (K × V))
    (h : l.Pairwise (fun a b => a.1 < b.1)) :
    (insertEntry k v l).length =
      if k ∈ l.map Prod.fst then l.length else l.length + 1 := by
  induction l with
  | nil => simp [insertEntry]
  | cons x rest ih =>
      rw [List.pairwise_cons] at h
      obtain ⟨hx, hrest⟩ := h
      rw [insertEntry]
      by_cases hlt : k < x.1
      · have hk : k ∉ (x :: rest).map Prod.fst := by
          simp only [List.map_cons, List.mem_cons, List.mem_map, not_or, not_exists, not_and]
          exact ⟨ne_of_lt hlt, fun y hy => ne_of_gt (lt_trans hlt (hx y hy))⟩
        rw [if_pos hlt, if_neg hk]
        rfl
      · rw [if_neg hlt]
        by_cases heq : k = x.1
        · simp [heq]
        · rw [if_neg heq, List.length_cons, ih hrest]
          simp only [List.map_cons, List.mem_cons, heq, false_or, List.length_cons]
          split_ifs <;> rfl

theorem entries_nodup (m : OrdMap K V) : m.entries.Nodup :=
  List.Nodup.of_map _ m.keys_nodup

/-- Where an insertion puts its entry does not matter up to order. -/
theorem entries_insert_perm (m : OrdMap K V) (k : K) (v : V) :
    (m.insert k v).entries.Perm ((k, v) :: (m.erase k).entries) := by
  have hnot : (k, v) ∉ (m.erase k).entries := fun h => by
    rw [← get?_eq_some, get?_erase, if_pos rfl] at h
    cases h
  refine (List.perm_ext_iff_of_nodup (entries_nodup _)
    (List.nodup_cons.mpr ⟨hnot, entries_nodup _⟩)).mpr fun ⟨k', v'⟩ => ?_
  rw [List.mem_cons, ← get?_eq_some, ← get?_eq_some, get?_insert, get?_erase, Prod.mk.injEq]
  split_ifs with hk <;> simp [hk, eq_comm]

theorem entries_perm_of_get? {m : OrdMap K V} {k : K} {v : V} (h : m.get? k = some v) :
    m.entries.Perm ((k, v) :: (m.erase k).entries) := by
  have hself : m.insert k v = m := ext_get? fun k' => by
    rw [get?_insert]
    split_ifs with hk
    · rw [hk, h]
    · rfl
  have hperm := entries_insert_perm m k v
  rwa [hself] at hperm

/-- Filtering out the lowest `n` keys drops the first `n` entries. -/
theorem entries_filter_take (m : OrdMap K V) (n : Nat) :
    (m.filter fun k _ => k ∉ m.keys.take n).entries = m.entries.drop n := by
  have hsplit : ∀ p : K × V → Bool, (∀ e ∈ m.entries.take n, p e = false) →
      (∀ e ∈ m.entries.drop n, p e = true) → m.entries.filter p = m.entries.drop n := by
    intro p hlow hhigh
    conv_lhs => rw [← List.take_append_drop n m.entries]
    rw [List.filter_append, List.filter_eq_nil_iff.mpr (by simpa using hlow),
      List.filter_eq_self.mpr hhigh, List.nil_append]
  have htake : m.keys.take n = (m.entries.take n).map Prod.fst := List.map_take.symm
  have hnd := m.keys_nodup
  rw [keys, ← List.take_append_drop n m.entries, List.map_append, List.nodup_append'] at hnd
  refine hsplit _ (fun e he => ?_) fun e he => ?_
  · rw [htake]
    exact decide_eq_false (not_not.mpr (List.mem_map_of_mem he))
  · rw [htake]
    exact decide_eq_true fun hmem => hnd.2.2 hmem (List.mem_map_of_mem he)

theorem erase_of_not_mem {m : OrdMap K V} {k : K} (h : m.get? k = none) : m.erase k = m := by
  refine ext_get? fun k' => ?_
  rw [get?_erase]
  split_ifs with hk
  · rw [hk, h]
  · rfl

theorem size_insert (m : OrdMap K V) (k : K) (v : V) :
    (m.insert k v).size = if m.contains k then m.size else m.size + 1 := by
  have hk : m.contains k = true ↔ k ∈ m.entries.map Prod.fst := by
    rw [contains_iff, ← mem_keys, keys]
  rw [size, insert, length_insertEntry k v m.entries m.sorted]
  simp only [hk, size]

/-- Counting values after an insertion. -/
theorem countP_values_insert_le (m : OrdMap K V) (k : K) (v : V) (p : V → Bool) :
    (m.insert k v).values.countP p ≤ m.values.countP p + 1 := by
  have hperm : (m.insert k v).values.Perm (v :: (m.erase k).values) :=
    (m.entries_insert_perm k v).map Prod.snd
  have hsub : (m.erase k).values.Sublist m.values := List.filter_sublist.map Prod.snd
  rw [hperm.countP_eq, List.countP_cons]
  have hle := hsub.countP_le (p := p)
  split_ifs <;> omega

theorem countP_values_filter_le (m : OrdMap K V) (q : K → V → Bool) (p : V → Bool) :
    (m.filter q).values.countP p ≤ m.values.countP p :=
  (List.filter_sublist.map Prod.snd).countP_le

theorem countP_values_erase_le (m : OrdMap K V) (k : K) (p : V → Bool) :
    (m.erase k).values.countP p ≤ m.values.countP p :=
  (List.filter_sublist.map Prod.snd).countP_le

theorem size_filter_le (m : OrdMap K V) (p : K → V → Bool) :
    (m.filter p).size ≤ m.size :=
  List.length_filter_le ..

@[simp] theorem size_mapVals (m : OrdMap K V) (f : K → V → W) :
    (m.mapVals f).size = m.size := by
  simp [mapVals, size]

@[simp] theorem length_keys (m : OrdMap K V) : m.keys.length = m.size := by
  simp [keys, size]

theorem size_eq_zero {m : OrdMap K V} : m.size = 0 ↔ m = ∅ := by
  constructor
  · intro h
    refine ext_get? fun k => ?_
    rw [get?, List.length_eq_zero_iff.mp h]
    rfl
  · rintro rfl
    rfl

/-- A duplicate-free list of keys is no longer than the map is large. -/
theorem length_le_size {m : OrdMap K V} {l : List K} (hnd : l.Nodup)
    (hsub : ∀ k ∈ l, ∃ v, m.get? k = some v) : l.length ≤ m.size := by
  rw [← length_keys]
  exact (List.subperm_of_subset hnd fun k hk => mem_keys.mpr (hsub k hk)).length_le

/-- A map is no larger than a list that has all its keys. -/
theorem size_le_length {m : OrdMap K V} {l : List K}
    (hsub : ∀ k v, m.get? k = some v → k ∈ l) : m.size ≤ l.length := by
  rw [← length_keys]
  refine (List.subperm_of_subset m.keys_nodup fun k hk => ?_).length_le
  obtain ⟨v, hv⟩ := mem_keys.mp hk
  exact hsub k v hv

theorem size_congr {m : OrdMap K V} {m' : OrdMap K W}
    (h : ∀ k, m.contains k = m'.contains k) : m.size = m'.size := by
  refine le_antisymm ?_ ?_
  · rw [← length_keys m']
    exact size_le_length fun k v hv => mem_keys.mpr (contains_iff.mp (h k ▸ contains_iff.mpr ⟨v, hv⟩))
  · rw [← length_keys m]
    exact size_le_length fun k v hv => mem_keys.mpr (contains_iff.mp (h k ▸ contains_iff.mpr ⟨v, hv⟩))

/-- A map whose values name distinct keys of another is no larger. -/
theorem size_le_of_injective {K' V' : Type} [LinearOrder K'] {m : OrdMap K V}
    {m' : OrdMap K' V'} (f : V → K')
    (hmem : ∀ k v, m.get? k = some v → ∃ v', m'.get? (f v) = some v')
    (hinj : ∀ k v k' v', m.get? k = some v → m.get? k' = some v' → f v = f v' → k = k') :
    m.size ≤ m'.size := by
  have hnd : (m.entries.map fun e => f e.2).Nodup := by
    refine List.Nodup.map_on (fun e he e' he' heq => ?_) (List.Nodup.of_map _ m.keys_nodup)
    have hv := get?_eq_some.mpr he
    have hkey : e.1 = e'.1 := hinj _ _ _ _ hv (get?_eq_some.mpr he') heq
    have hv' := get?_eq_some.mpr he'
    rw [hkey, hv'] at hv
    exact Prod.ext hkey (Option.some.inj hv).symm
  have hle := length_le_size hnd fun k hk => by
    obtain ⟨e, he, rfl⟩ := List.mem_map.mp hk
    exact hmem e.1 e.2 (get?_eq_some.mpr he)
  rwa [List.length_map] at hle

/-- A duplicate-free list of keys of the map is all of them exactly when
it is as long as the map is large. -/
theorem size_eq_length_iff {m : OrdMap K V} {l : List K} (hnd : l.Nodup)
    (hsub : ∀ k ∈ l, m.contains k = true) :
    m.size = l.length ↔ ∀ k, m.contains k = true → k ∈ l := by
  have hkeys : ∀ k, k ∈ m.keys ↔ m.contains k = true := fun k => by
    rw [mem_keys, contains_iff]
  rw [← length_keys]
  constructor
  · intro hlen k hk
    have hp := (List.subperm_of_subset hnd fun k hk => (hkeys k).mpr (hsub k hk)).perm_of_length_le
      (le_of_eq hlen)
    exact hp.mem_iff.mpr ((hkeys k).mpr hk)
  · intro hall
    refine ((List.perm_ext_iff_of_nodup m.keys_nodup hnd).mpr fun k => ?_).length_eq
    rw [hkeys]
    exact ⟨hall k, hsub k⟩

/-! ## Building a map from a list -/

theorem get?_insertAll_of_not_mem {l : List (K × V)} {k : K}
    (h : k ∉ l.map Prod.fst) : ∀ m : OrdMap K V,
    (m.insertAll l).get? k = m.get? k := by
  induction l with
  | nil => intro m; rfl
  | cons e rest ih =>
      intro m
      rw [List.map_cons, List.mem_cons, not_or] at h
      rw [insertAll, List.foldl_cons, ← insertAll, ih h.2, get?_insert_ne _ _ h.1]

/-- In a list without repeated keys every entry ends up in the map. -/
theorem get?_insertAll_of_mem {l : List (K × V)}
    (hnd : (l.map Prod.fst).Nodup) {k : K} {v : V} (h : (k, v) ∈ l) :
    ∀ m : OrdMap K V, (m.insertAll l).get? k = some v := by
  induction l with
  | nil => cases h
  | cons e rest ih =>
      intro m
      rw [List.map_cons, List.nodup_cons] at hnd
      rw [insertAll, List.foldl_cons, ← insertAll]
      rcases List.mem_cons.mp h with rfl | h
      · rw [get?_insertAll_of_not_mem hnd.1, get?_insert_self]
      · exact ih hnd.2 h _

theorem get?_insertAll_ne_none {l : List (K × V)} {k : K}
    (h : k ∈ l.map Prod.fst) : ∀ m : OrdMap K V,
    ∃ v, (k, v) ∈ l ∧ (m.insertAll l).get? k = some v := by
  induction l with
  | nil => cases h
  | cons e rest ih =>
      intro m
      rw [insertAll, List.foldl_cons, ← insertAll]
      by_cases hr : k ∈ rest.map Prod.fst
      · obtain ⟨v, hm, hv⟩ := ih hr (m.insert e.1 e.2)
        exact ⟨v, List.mem_cons_of_mem _ hm, hv⟩
      · obtain rfl : k = e.1 := by simpa [hr] using h
        refine ⟨e.2, List.mem_cons_self .., ?_⟩
        rw [get?_insertAll_of_not_mem hr, get?_insert_self]

theorem get?_insertAll_eq_some {l : List (K × V)} (hnd : (l.map Prod.fst).Nodup)
    {m : OrdMap K V} {k : K} {v : V} :
    (m.insertAll l).get? k = some v ↔
      (k, v) ∈ l ∨ (k ∉ l.map Prod.fst ∧ m.get? k = some v) := by
  by_cases hk : k ∈ l.map Prod.fst
  · obtain ⟨w, hmem, hw⟩ := get?_insertAll_ne_none hk m
    constructor
    · intro h
      rw [hw] at h
      exact Or.inl (Option.some.inj h ▸ hmem)
    · rintro (h | ⟨h, -⟩)
      · exact get?_insertAll_of_mem hnd h m
      · exact absurd hk h
  · rw [get?_insertAll_of_not_mem hk]
    exact ⟨fun h => Or.inr ⟨hk, h⟩, fun h => h.elim
      (fun h => absurd (List.mem_map_of_mem h) hk) And.right⟩

/-- One map laid over another. -/
theorem get?_insertAll_entries (m m' : OrdMap K V) (k : K) :
    (m.insertAll m'.entries).get? k = (m'.get? k).or (m.get? k) := by
  cases hk : m'.get? k with
  | some v => exact get?_insertAll_of_mem m'.keys_nodup (get?_eq_some.mp hk) m
  | none =>
      rw [Option.none_or, get?_insertAll_of_not_mem]
      intro hmem
      obtain ⟨v, hv⟩ := mem_keys.mp hmem
      rw [hk] at hv
      cases hv

theorem mem_keys_insertAll {l : List (K × V)} {m : OrdMap K V} {k : K} :
    k ∈ (m.insertAll l).keys ↔ k ∈ l.map Prod.fst ∨ k ∈ m.keys := by
  by_cases hk : k ∈ l.map Prod.fst
  · obtain ⟨v, -, hv⟩ := get?_insertAll_ne_none hk m
    exact iff_of_true (mem_keys.mpr ⟨v, hv⟩) (Or.inl hk)
  · rw [mem_keys, mem_keys, get?_insertAll_of_not_mem hk]
    exact ⟨Or.inr, fun h => h.resolve_left hk⟩

theorem mem_keys_ofList {l : List (K × V)} {k : K} :
    k ∈ (ofList l).keys ↔ k ∈ l.map Prod.fst := by
  rw [ofList, mem_keys_insertAll]
  exact or_iff_left List.not_mem_nil

/-- A list builds a map as large as itself exactly when no key repeats. -/
theorem size_ofList_eq_length_iff {l : List (K × V)} :
    (ofList l).size = l.length ↔ (l.map Prod.fst).Nodup := by
  have hmap : l.length = (l.map Prod.fst).length := (List.length_map _).symm
  rw [← length_keys, hmap]
  constructor
  · intro hlen
    have hsub : (ofList l).keys ⊆ l.map Prod.fst := fun k hk => mem_keys_ofList.mp hk
    have hperm := (List.subperm_of_subset (ofList l).keys_nodup hsub).perm_of_length_le hlen.ge
    exact hperm.nodup_iff.mp (ofList l).keys_nodup
  · intro hnd
    exact ((List.perm_ext_iff_of_nodup (ofList l).keys_nodup hnd).mpr
      fun k => mem_keys_ofList).length_eq

/-- The map a list without repeated keys builds. -/
theorem get?_ofList {l : List (K × V)} (hnd : (l.map Prod.fst).Nodup) {k : K} {v : V} :
    (ofList l).get? k = some v ↔ (k, v) ∈ l := by
  refine ⟨fun h => ?_, fun h => get?_insertAll_of_mem hnd h ∅⟩
  obtain ⟨v', hmem, hv'⟩ := get?_insertAll_ne_none
    (mem_keys_ofList.mp (mem_keys.mpr ⟨v, h⟩)) ∅
  rw [ofList] at h
  rwa [Option.some.inj (h.symm.trans hv')]

/-- The map of a list has nothing that is not in the list. -/
theorem entries_ofList_subset (l : List (K × V)) : (ofList l).entries ⊆ l := by
  rintro ⟨k, v⟩ h
  have hv : (ofList l).get? k = some v := get?_eq_some.mpr h
  obtain ⟨v', hmem, hv'⟩ := get?_insertAll_ne_none
    (mem_keys_ofList.mp (mem_keys.mpr ⟨v, hv⟩)) ∅
  rw [ofList] at hv
  rwa [Option.some.inj (hv.symm.trans hv')]

theorem ofList_entries (m : OrdMap K V) : ofList m.entries = m := by
  refine ext_get? fun k => Option.ext fun v => ?_
  rw [get?_ofList m.keys_nodup, get?_eq_some]

end OrdMap
