import HermesMq.Codec
import HermesMq.Wire
import Mathlib.Data.Finset.Sort

/-!
# Layouts

A layout says how the values of a type stand as bytes: a writer, and a
reader that takes a value off the front of what it is given. Three laws are
part of it. What was written is read back, whatever stands behind it. A
reader that has found its value does not change its mind when more bytes
follow, so no proper beginning of what was written reads as anything
(`Layout.read_prefix`). And what is read can be written, however unlike the
writer's bytes they were (`Layout.decode_write_of_decode`).

Layouts are put together as the types are: pairs, records, sequences, maps.
An enumeration is the list of its variants, and a value stands behind the
place of its variant in the list. A writer and a reader that know different
beginnings of the list understand each other where they can, and where they
cannot the reader refuses (`Layout.ReadBy.enum`), and so it is for anything
put together from them.
-/

namespace Wire

/-- `Fits` are the values the writer can write. -/
structure Layout (α : Type) where
  Fits : α → Prop
  write : α → List UInt8
  read : List UInt8 → Option (α × List UInt8)
  read_write : ∀ {a : α}, Fits a → ∀ rest, read (write a ++ rest) = some (a, rest)
  read_append : ∀ {bytes rest : List UInt8} {a : α}, read bytes = some (a, rest) →
    ∀ more, read (bytes ++ more) = some (a, rest ++ more)
  fits_read : ∀ {bytes rest : List UInt8} {a : α}, read bytes = some (a, rest) → Fits a

namespace Layout

variable {α β : Type}

/-- The value at the front, with no regard to what follows. -/
def decode (l : Layout α) (bytes : List UInt8) : Option α := (l.read bytes).map Prod.fst

theorem decode_write (l : Layout α) {a : α} (h : l.Fits a) : l.decode (l.write a) = some a := by
  have hread := l.read_write h []
  rw [List.append_nil] at hread
  rw [decode, hread, Option.map_some]

/-- A beginning of what was written is read only if it is all of it. -/
theorem read_prefix (l : Layout α) {a a' : α} {p rest : List UInt8} (h : l.Fits a)
    (hp : p <+: l.write a) (hread : l.read p = some (a', rest)) :
    p = l.write a ∧ a' = a ∧ rest = [] := by
  obtain ⟨missing, hmissing⟩ := hp
  have hall := l.read_append hread missing
  have hwritten := l.read_write h []
  rw [List.append_nil, ← hmissing, hall, Option.some.injEq, Prod.mk.injEq,
    List.append_eq_nil_iff] at hwritten
  obtain ⟨ha, hrest, rfl⟩ := hwritten
  exact ⟨by rw [← hmissing, List.append_nil], ha, hrest⟩

/-! ## Numbers -/

/-- Up to `more` groups and then one that is at most `last`. Groups of zeros
at the end are read, though they are never written. -/
def readVarint (last : Nat) : (more : Nat) → List UInt8 → Option (Nat × List UInt8)
  | _, [] => none
  | 0, b :: rest => if b.toNat ≤ last then some (b.toNat, rest) else none
  | more + 1, b :: rest =>
      if b.toNat < 128 then some (b.toNat, rest)
      else (readVarint last more rest).map fun p => (b.toNat - 128 + 128 * p.1, p.2)

theorem readVarint_varint {last : Nat} (hlast : last < 128) {more n : Nat}
    (h : n < 128 ^ more * (last + 1)) (rest : List UInt8) :
    readVarint last more (varint n ++ rest) = some (n, rest) := by
  have hbyte : ∀ {k : Nat}, k < 256 → (UInt8.ofNat k).toNat = k := fun hk => by
    rw [UInt8.toNat_ofNat', Nat.mod_eq_of_lt hk]
  induction more generalizing n with
  | zero =>
      rw [Nat.pow_zero, Nat.one_mul] at h
      rw [varint, if_pos (by omega), List.cons_append, List.nil_append, readVarint,
        hbyte (by omega), if_pos (by omega)]
  | succ more ih =>
      rw [varint]
      split_ifs with hn
      · rw [List.cons_append, List.nil_append, readVarint, hbyte (by omega), if_pos hn]
      · have hdiv : n / 128 < 128 ^ more * (last + 1) := by
          rw [Nat.pow_succ, Nat.mul_right_comm] at h
          exact Nat.div_lt_of_lt_mul (Nat.mul_comm _ _ ▸ h)
        rw [List.cons_append, readVarint, hbyte (by omega), if_neg (by omega), ih hdiv,
          Option.map_some]
        congr 2
        omega

theorem readVarint_append {last more n : Nat} {bytes rest : List UInt8}
    (h : readVarint last more bytes = some (n, rest)) (behind : List UInt8) :
    readVarint last more (bytes ++ behind) = some (n, rest ++ behind) := by
  induction more generalizing bytes n with
  | zero =>
      cases bytes with
      | nil => cases h
      | cons b bytes =>
          rw [List.cons_append, readVarint] at *
          split_ifs at h ⊢
          cases h
          rfl
  | succ more ih =>
      cases bytes with
      | nil => cases h
      | cons b bytes =>
          rw [List.cons_append, readVarint] at *
          split_ifs at h ⊢
          · cases h
            rfl
          · obtain ⟨⟨k, rest'⟩, hk, heq⟩ := Option.map_eq_some_iff.mp h
            cases heq
            rw [ih hk, Option.map_some]

theorem readVarint_lt {last more n : Nat} {bytes rest : List UInt8}
    (h : readVarint last more bytes = some (n, rest)) : n < 128 ^ more * (last + 1) := by
  induction more generalizing bytes n with
  | zero =>
      cases bytes with
      | nil => cases h
      | cons b bytes =>
          rw [readVarint] at h
          split_ifs at h with hb
          cases h
          omega
  | succ more ih =>
      cases bytes with
      | nil => cases h
      | cons b bytes =>
          have hb := b.toNat_lt
          rw [Nat.pow_succ, Nat.mul_right_comm]
          rw [readVarint] at h
          split_ifs at h
          · cases h
            have hpos : 0 < 128 ^ more * (last + 1) :=
              Nat.mul_pos (Nat.pow_pos (by decide)) (Nat.succ_pos last)
            omega
          · obtain ⟨⟨k, rest'⟩, hk, heq⟩ := Option.map_eq_some_iff.mp h
            cases heq
            have hlt := ih hk
            omega

/-- Numbers of at most `more + 1` groups, the last of them at most `last`. -/
def uint (more last : Nat) (hlast : last < 128) : Layout Nat where
  Fits n := n < 128 ^ more * (last + 1)
  write := varint
  read := readVarint last more
  read_write h rest := readVarint_varint hlast h rest
  read_append h more := readVarint_append h more
  fits_read h := readVarint_lt h

def u64 : Layout Nat := uint 9 1 (by decide)

def u32 : Layout Nat := uint 4 15 (by decide)

theorem fits_u64 {n : Nat} : u64.Fits n ↔ n < 2 ^ 64 := Iff.rfl

theorem fits_u32 {n : Nat} : u32.Fits n ↔ n < 2 ^ 32 := Iff.rfl

/-- Nothing at all. -/
def unit : Layout Unit where
  Fits _ := True
  write _ := []
  read bytes := some ((), bytes)
  read_write _ _ := rfl
  read_append h _ := by
    cases h
    rfl
  fits_read _ := trivial

/-- A byte as it is. -/
def byte : Layout UInt8 where
  Fits _ := True
  write b := [b]
  read
    | [] => none
    | b :: rest => some (b, rest)
  read_write _ _ := rfl
  read_append {bytes _ _} h more := by
    cases bytes with
    | nil => cases h
    | cons b bytes =>
        cases h
        rfl
  fits_read _ := trivial

/-! ## Records -/

def pair (l : Layout α) (r : Layout β) : Layout (α × β) where
  Fits p := l.Fits p.1 ∧ r.Fits p.2
  write p := l.write p.1 ++ r.write p.2
  read bytes := (l.read bytes).bind fun x => (r.read x.2).map fun y => ((x.1, y.1), y.2)
  read_write {p} h rest := by
    rw [List.append_assoc, l.read_write h.1, Option.bind_some, r.read_write h.2, Option.map_some]
  read_append {bytes rest p} h more := by
    obtain ⟨x, hx, h⟩ := Option.bind_eq_some_iff.mp h
    obtain ⟨y, hy, h⟩ := Option.map_eq_some_iff.mp h
    cases h
    rw [l.read_append hx, Option.bind_some, r.read_append hy, Option.map_some]
  fits_read {bytes rest p} h := by
    obtain ⟨x, hx, h⟩ := Option.bind_eq_some_iff.mp h
    obtain ⟨y, hy, h⟩ := Option.map_eq_some_iff.mp h
    cases h
    exact ⟨l.fits_read hx, r.fits_read hy⟩

/-- The layout of what the values are made of, of which not all make one. -/
def checked (l : Layout β) (make? : β → Option α) (parts : α → β)
    (h : ∀ a, make? (parts a) = some a)
    (hmade : ∀ b a, make? b = some a → l.Fits b → l.Fits (parts a)) : Layout α where
  Fits a := l.Fits (parts a)
  write a := l.write (parts a)
  read bytes := (l.read bytes).bind fun x => (make? x.1).map (·, x.2)
  read_write hfits rest := by
    rw [l.read_write hfits, Option.bind_some, h, Option.map_some]
  read_append {bytes rest a} hread more := by
    obtain ⟨x, hx, hread⟩ := Option.bind_eq_some_iff.mp hread
    obtain ⟨a', ha', heq⟩ := Option.map_eq_some_iff.mp hread
    cases heq
    rw [l.read_append hx, Option.bind_some, ha', Option.map_some]
  fits_read {bytes rest a} hread := by
    obtain ⟨x, hx, hread⟩ := Option.bind_eq_some_iff.mp hread
    obtain ⟨a', ha', heq⟩ := Option.map_eq_some_iff.mp hread
    cases heq
    exact hmade _ _ ha' (l.fits_read hx)

/-- A record by its fields. -/
def record (l : Layout β) (make : β → α) (fields : α → β) (h : ∀ a, make (fields a) = a)
    (hfields : ∀ b, fields (make b) = b := by intro _; rfl) : Layout α :=
  l.checked (fun b => some (make b)) fields (fun a => congrArg some (h a)) fun b a hmake hb => by
    rw [← Option.some.inj hmake, hfields]
    exact hb

/-- A byte that is 0 or 1. -/
def bool : Layout Bool :=
  byte.checked (fun b => if b = 0 then some false else if b = 1 then some true else none)
    (fun b => if b then 1 else 0) (by decide) fun _ _ _ _ => trivial

/-! ## Sequences -/

def readBytes (n : Nat) (bytes : List UInt8) : Option (List UInt8 × List UInt8) :=
  if n ≤ bytes.length then some (bytes.take n, bytes.drop n) else none

/-- Bytes behind their length. -/
def bytes : Layout (List UInt8) where
  Fits b := u64.Fits b.length
  write := delimited
  read input := (u64.read input).bind fun x => readBytes x.1 x.2
  read_write {b} h rest := by
    rw [delimited, List.append_assoc]
    refine (congrArg (Option.bind · _) (u64.read_write h _)).trans ?_
    rw [Option.bind_some, readBytes, if_pos (by rw [List.length_append]; omega), List.take_left,
      List.drop_left]
  read_append {input rest b} h more := by
    obtain ⟨x, hx, h⟩ := Option.bind_eq_some_iff.mp h
    rw [u64.read_append hx, Option.bind_some]
    unfold readBytes at h ⊢
    split_ifs at h with hlen
    cases h
    rw [if_pos (by rw [List.length_append]; omega), List.take_append_of_le_length hlen,
      List.drop_append_of_le_length hlen]
  fits_read {input rest b} h := by
    obtain ⟨x, hx, h⟩ := Option.bind_eq_some_iff.mp h
    unfold readBytes at h
    split_ifs at h with hlen
    cases h
    rw [List.length_take_of_le hlen]
    exact u64.fits_read hx

/-- Text as its UTF-8 bytes. -/
def text : Layout String :=
  bytes.checked (fun b => String.fromUTF8? ⟨b.toArray⟩) (fun s => s.toUTF8.data.toList)
    (fun s => by
      have hvalid : (⟨s.toUTF8.data⟩ : ByteArray).IsValidUTF8 := s.isValidUTF8
      rw [Array.toArray_toList, String.fromUTF8?, dif_pos hvalid]
      rfl)
    fun b s hs hb => by
      unfold String.fromUTF8? at hs
      split_ifs at hs
      rw [← Option.some.inj hs]
      exact hb

def readMany (read : List UInt8 → Option (α × List UInt8)) :
    Nat → List UInt8 → Option (List α × List UInt8)
  | 0, input => some ([], input)
  | n + 1, input => (read input).bind fun x =>
      (readMany read n x.2).map fun y => (x.1 :: y.1, y.2)

theorem readMany_write (l : Layout α) {as : List α} (h : ∀ a ∈ as, l.Fits a)
    (rest : List UInt8) :
    readMany l.read as.length (as.flatMap l.write ++ rest) = some (as, rest) := by
  induction as with
  | nil => rfl
  | cons a as ih =>
      obtain ⟨ha, has⟩ := List.forall_mem_cons.mp h
      rw [List.length_cons, readMany, List.flatMap_cons, List.append_assoc, l.read_write ha,
        Option.bind_some, ih has, Option.map_some]

theorem readMany_append (l : Layout α) {n : Nat} {as : List α} {input rest : List UInt8}
    (h : readMany l.read n input = some (as, rest)) (more : List UInt8) :
    readMany l.read n (input ++ more) = some (as, rest ++ more) := by
  induction n generalizing input as with
  | zero =>
      cases h
      rfl
  | succ n ih =>
      obtain ⟨x, hx, h⟩ := Option.bind_eq_some_iff.mp h
      obtain ⟨y, hy, h⟩ := Option.map_eq_some_iff.mp h
      cases h
      rw [readMany, l.read_append hx, Option.bind_some, ih hy, Option.map_some]

theorem readMany_fits (l : Layout α) {n : Nat} {as : List α} {input rest : List UInt8}
    (h : readMany l.read n input = some (as, rest)) : as.length = n ∧ ∀ a ∈ as, l.Fits a := by
  induction n generalizing input as with
  | zero =>
      cases h
      exact ⟨rfl, List.forall_mem_nil _⟩
  | succ n ih =>
      obtain ⟨x, hx, h⟩ := Option.bind_eq_some_iff.mp h
      obtain ⟨y, hy, h⟩ := Option.map_eq_some_iff.mp h
      cases h
      obtain ⟨hlen, hfits⟩ := ih hy
      exact ⟨congrArg Nat.succ hlen, List.forall_mem_cons.mpr ⟨l.fits_read hx, hfits⟩⟩

/-- A sequence behind its length. -/
def seq (l : Layout α) : Layout (List α) where
  Fits as := u64.Fits as.length ∧ ∀ a ∈ as, l.Fits a
  write := Wire.seq l.write
  read input := (u64.read input).bind fun x => readMany l.read x.1 x.2
  read_write {as} h rest := by
    rw [Wire.seq, List.append_assoc]
    refine (congrArg (Option.bind · _) (u64.read_write h.1 _)).trans ?_
    rw [Option.bind_some, readMany_write l h.2]
  read_append {input rest as} h more := by
    obtain ⟨x, hx, h⟩ := Option.bind_eq_some_iff.mp h
    rw [u64.read_append hx, Option.bind_some, readMany_append l h]
  fits_read {input rest as} h := by
    obtain ⟨x, hx, h⟩ := Option.bind_eq_some_iff.mp h
    obtain ⟨hlen, hfits⟩ := readMany_fits l h
    exact ⟨hlen ▸ u64.fits_read hx, hfits⟩

/-- Fewer of the same elements fit. -/
theorem fits_seq_of_subset (l : Layout α) {as bs : List α} (h : l.seq.Fits as) (hnd : bs.Nodup)
    (hsub : bs ⊆ as) : l.seq.Fits bs :=
  ⟨(List.subperm_of_subset hnd hsub).length_le.trans_lt h.1, fun b hb => h.2 b (hsub hb)⟩

/-- A map as the sequence of its entries. The reader takes them in any
order, and the last one for a key. -/
def ordMap {K V : Type} [LinearOrder K] (k : Layout K) (v : Layout V) : Layout (OrdMap K V) :=
  (k.pair v).seq.checked (fun l => some (OrdMap.ofList l)) OrdMap.entries
    (fun m => congrArg some m.ofList_entries) fun l m hm hl => by
      cases hm
      exact fits_seq_of_subset _ hl (OrdMap.entries_nodup _) (OrdMap.entries_ofList_subset l)

/-- A set as the sequence of its elements. -/
def finset {K : Type} [LinearOrder K] (k : Layout K) : Layout (Finset K) :=
  k.seq.checked (fun l => some l.toFinset) Finset.sort
    (fun s => congrArg some (Finset.sort_toFinset s _)) fun l s hs hl => by
      cases hs
      exact fits_seq_of_subset _ hl (Finset.sort_nodup _ _) fun a ha =>
        List.mem_toFinset.mp ((Finset.mem_sort _).mp ha)

theorem fits_ordMap {K V : Type} [LinearOrder K] {k : Layout K} {v : Layout V} {m : OrdMap K V} :
    (k.ordMap v).Fits m ↔
      m.size < 2 ^ 64 ∧ ∀ x y, m.get? x = some y → k.Fits x ∧ v.Fits y := by
  refine and_congr Iff.rfl ⟨fun h x y hy => h (x, y) (OrdMap.get?_eq_some.mp hy), fun h => ?_⟩
  rintro ⟨x, y⟩ hxy
  exact h x y (OrdMap.get?_eq_some.mpr hxy)

theorem fits_mapVals {K V W : Type} [LinearOrder K] {k : Layout K} {v : Layout V} {w : Layout W}
    {m : OrdMap K V} (h : (k.ordMap v).Fits m) {f : K → V → W}
    (hf : ∀ x y, v.Fits y → w.Fits (f x y)) : (k.ordMap w).Fits (m.mapVals f) := by
  obtain ⟨hsize, hentries⟩ := fits_ordMap.mp h
  refine fits_ordMap.mpr ⟨(OrdMap.size_mapVals m f).symm ▸ hsize, fun x z hz => ?_⟩
  rw [OrdMap.get?_mapVals] at hz
  obtain ⟨y, hy, rfl⟩ := Option.map_eq_some_iff.mp hz
  exact ⟨(hentries x y hy).1, hf x y (hentries x y hy).2⟩

theorem fits_finset {K : Type} [LinearOrder K] {k : Layout K} {s : Finset K} :
    k.finset.Fits s ↔ s.card < 2 ^ 64 ∧ ∀ x ∈ s, k.Fits x := by
  refine and_congr ?_ (forall_congr' fun x => imp_congr_left (Finset.mem_sort _))
  rw [Finset.length_sort]
  exact fits_u64

/-- A value that may be missing, behind a byte that tells. -/
def option (l : Layout α) : Layout (Option α) where
  Fits a := ∀ x, a = some x → l.Fits x
  write := Wire.option l.write
  read
    | [] => none
    | b :: rest =>
        if b = 0 then some (none, rest)
        else if b = 1 then (l.read rest).map fun x => (some x.1, x.2)
        else none
  read_write {a} h rest := by
    cases a with
    | none => rfl
    | some x =>
        refine (congrArg (Option.map fun x => (some x.1, x.2)) (l.read_write (h x rfl) rest)).trans ?_
        rfl
  read_append {input rest a} h more := by
    cases input with
    | nil => cases h
    | cons b input =>
        simp only [List.cons_append] at h ⊢
        split_ifs at h ⊢
        · cases h
          rfl
        · obtain ⟨x, hx, h⟩ := Option.map_eq_some_iff.mp h
          cases h
          rw [l.read_append hx, Option.map_some]
  fits_read {input rest a} h := by
    cases input with
    | nil => cases h
    | cons b input =>
        simp only at h
        split_ifs at h
        · cases h
          intro x hx
          cases hx
        · obtain ⟨x, hx, h⟩ := Option.map_eq_some_iff.mp h
          cases h
          intro y hy
          cases hy
          exact l.fits_read hx

end Layout

/-! ## Enumerations -/

/-- One variant of an enumeration, and when a value is one of it. -/
structure Variant (α : Type) where
  Payload : Type
  layout : Layout Payload
  make : Payload → α
  get? : α → Option Payload
  make_of_get? : ∀ {a p}, get? a = some p → make p = a
  get?_make : ∀ p, get? (make p) = some p

namespace Variant

variable {α : Type}

/-- A variant with fields; its values are those that `get?` takes apart. -/
def of {β : Type} (layout : Layout β) (make : β → α) (get? : α → Option β)
    (h : ∀ a p, get? a = some p → make p = a := by
      intro a p h
      cases a <;> cases h
      rfl)
    (h' : ∀ p, get? (make p) = some p := by intro _; rfl) : Variant α where
  Payload := β
  layout := layout
  make := make
  get? := get?
  make_of_get? := h _ _
  get?_make := h'

/-- A variant without fields. -/
def plain [DecidableEq α] (a : α) : Variant α where
  Payload := Unit
  layout := .unit
  make _ := a
  get? x := if x = a then some () else none
  make_of_get? h := by
    split_ifs at h with hx
    exact hx.symm
  get?_make _ := if_pos rfl

/-- A value behind the place of its variant, where the list is the part of
the enumeration from place `i` on. -/
def write : List (Variant α) → (i : Nat) → α → List UInt8
  | [], _, _ => []
  | v :: vs, i, a =>
      match v.get? a with
      | some p => varint i ++ v.layout.write p
      | none => write vs (i + 1) a

def Fits : List (Variant α) → α → Prop
  | [], _ => False
  | v :: vs, a =>
      match v.get? a with
      | some p => v.layout.Fits p
      | none => Fits vs a

def read (vs : List (Variant α)) (bytes : List UInt8) : Option (α × List UInt8) :=
  (Layout.u32.read bytes).bind fun x => vs[x.1]?.bind fun v =>
    (v.layout.read x.2).map fun y => (v.make y.1, y.2)

/-- Where the variant of the value stands in the list. -/
def place (vs : List (Variant α)) (a : α) : Nat := vs.findIdx fun v => (v.get? a).isSome

/-- A value that can be written is of a variant of the list, and stands
behind its place. -/
theorem Fits.at_place {vs : List (Variant α)} {a : α} (h : Fits vs a) (k : Nat) :
    ∃ v p, vs[place vs a]? = some v ∧ v.get? a = some p ∧ v.layout.Fits p ∧
      write vs k a = varint (k + place vs a) ++ v.layout.write p := by
  induction vs generalizing k with
  | nil => cases h
  | cons v vs ih =>
      rw [Fits] at h
      rw [write, place, List.findIdx_cons]
      cases hp : v.get? a with
      | some p =>
          rw [hp] at h
          exact ⟨v, p, rfl, hp, h, rfl⟩
      | none =>
          rw [hp] at h
          obtain ⟨w, p, hw, hget, hfits, hwrite⟩ := ih h (k + 1)
          refine ⟨w, p, hw, hget, hfits, ?_⟩
          rw [hwrite, Nat.add_right_comm, Nat.add_assoc]
          rfl

/-- Every variant of the list is found where it stands: `vs` is the part of
the enumeration `all` from place `i` on. -/
def Placed (all : List (Variant α)) : (vs : List (Variant α)) → (i : Nat) → Prop
  | [], _ => True
  | v :: vs, i => (∀ p, place all (v.make p) = i) ∧ Placed all vs (i + 1)

theorem Placed.place_eq {all vs : List (Variant α)} {i : Nat} (h : Placed all vs i) {k : Nat}
    {v : Variant α} (hv : vs[k]? = some v) (p : v.Payload) : place all (v.make p) = i + k := by
  induction vs generalizing i k with
  | nil => cases hv
  | cons w vs ih =>
      cases k with
      | zero =>
          cases hv
          exact h.1 p
      | succ k => rw [ih h.2 hv, Nat.add_right_comm, Nat.add_assoc]

theorem Placed.take_from {all vs : List (Variant α)} {i : Nat} (h : Placed all vs i) (k : Nat) :
    Placed (all.take (i + k)) (vs.take k) i := by
  induction vs generalizing i k with
  | nil => cases k <;> trivial
  | cons v vs ih =>
      cases k with
      | zero => trivial
      | succ k =>
          refine ⟨fun p => ?_, ?_⟩
          · have hplace := h.1 p
            rw [place] at hplace ⊢
            rw [List.findIdx_take, hplace]
            omega
          · have htail := ih h.2 k
            rwa [Nat.add_right_comm, Nat.add_assoc] at htail

theorem Placed.take {vs : List (Variant α)} (h : Placed vs vs 0) (k : Nat) :
    Placed (vs.take k) (vs.take k) 0 := by
  have htake := h.take_from k
  rwa [Nat.zero_add] at htake

theorem fits_of_place {vs : List (Variant α)} {a : α} {v : Variant α} {p : v.Payload}
    (hv : vs[place vs a]? = some v) (hget : v.get? a = some p) (hp : v.layout.Fits p) :
    Fits vs a := by
  induction vs with
  | nil => cases hv
  | cons w vs ih =>
      rw [place, List.findIdx_cons] at hv
      rw [Fits]
      cases hw : w.get? a with
      | some p' =>
          rw [hw] at hv
          cases hv
          rw [hget] at hw
          cases hw
          exact hp
      | none =>
          rw [hw] at hv
          exact ih hv

end Variant

namespace Layout

variable {α : Type}

/-- The enumeration with these variants. -/
def enum (vs : List (Variant α)) (hvs : vs.length ≤ 2 ^ 32) (hplaced : Variant.Placed vs vs 0) :
    Layout α where
  Fits := Variant.Fits vs
  write := Variant.write vs 0
  read := Variant.read vs
  read_write {a} h rest := by
    obtain ⟨v, p, hv, hget, hfits, hwrite⟩ := h.at_place 0
    obtain ⟨hlt, -⟩ := List.getElem?_eq_some_iff.mp hv
    rw [hwrite, Nat.zero_add, List.append_assoc, Variant.read]
    refine (congrArg (Option.bind · _)
      (u32.read_write (fits_u32.mpr (hlt.trans_le hvs)) _)).trans ?_
    rw [Option.bind_some, hv, Option.bind_some, v.layout.read_write hfits, Option.map_some,
      v.make_of_get? hget]
  read_append {bytes rest a} h more := by
    obtain ⟨x, hx, h⟩ := Option.bind_eq_some_iff.mp h
    obtain ⟨v, hv, h⟩ := Option.bind_eq_some_iff.mp h
    obtain ⟨y, hy, h⟩ := Option.map_eq_some_iff.mp h
    cases h
    rw [Variant.read, u32.read_append hx, Option.bind_some, hv, Option.bind_some,
      v.layout.read_append hy, Option.map_some]
  fits_read {bytes rest a} h := by
    obtain ⟨x, hx, h⟩ := Option.bind_eq_some_iff.mp h
    obtain ⟨v, hv, h⟩ := Option.bind_eq_some_iff.mp h
    obtain ⟨y, hy, h⟩ := Option.map_eq_some_iff.mp h
    cases h
    have hplace : Variant.place vs (v.make y.1) = x.1 := by
      rw [hplaced.place_eq hv, Nat.zero_add]
    exact Variant.fits_of_place (hplace ▸ hv) (v.get?_make y.1) (v.layout.fits_read hy)

/-! ## A writer and a reader of different releases -/

/-- What `w` writes, `r` reads as itself if it is `known`, and otherwise as
nothing. -/
def ReadBy (w r : Layout α) (known : α → Prop) : Prop :=
  ∀ a, w.Fits a → ∀ rest, (known a → r.read (w.write a ++ rest) = some (a, rest)) ∧
    (¬known a → r.read (w.write a ++ rest) = none)

theorem ReadBy.refl (l : Layout α) : l.ReadBy l fun _ => True :=
  fun _ h rest => ⟨fun _ => l.read_write h rest, fun hk => absurd trivial hk⟩

theorem ReadBy.congr {w r : Layout α} {known known' : α → Prop} (h : w.ReadBy r known)
    (hknown : ∀ a, known a ↔ known' a) : w.ReadBy r known' := by
  rwa [← funext fun a => propext (hknown a)]

theorem ReadBy.pair {β : Type} {w r : Layout α} {w' r' : Layout β} {known : α → Prop}
    {known' : β → Prop} (h : w.ReadBy r known) (h' : w'.ReadBy r' known') :
    (w.pair w').ReadBy (r.pair r') fun p => known p.1 ∧ known' p.2 := by
  rintro ⟨a, b⟩ ⟨ha, hb⟩ rest
  obtain ⟨hyes, hno⟩ := h a ha (w'.write b ++ rest)
  obtain ⟨hyes', hno'⟩ := h' b hb rest
  have hread : (r.pair r').read ((w.pair w').write (a, b) ++ rest) =
      (r.read (w.write a ++ (w'.write b ++ rest))).bind fun x =>
        (r'.read x.2).map fun y => ((x.1, y.1), y.2) := by
    rw [← List.append_assoc]
    rfl
  rw [hread]
  refine ⟨fun hk => ?_, fun hk => ?_⟩
  · rw [hyes hk.1, Option.bind_some, hyes' hk.2, Option.map_some]
  · by_cases hka : known a
    · rw [hyes hka, Option.bind_some, hno' fun hkb => hk ⟨hka, hkb⟩, Option.map_none]
    · rw [hno hka, Option.bind_none]

theorem ReadBy.record {β : Type} {w r : Layout β} {known : β → Prop} (h : w.ReadBy r known)
    {make : β → α} {fields : α → β} (hmake : ∀ a, make (fields a) = a)
    (hfields : ∀ b, fields (make b) = b) :
    (w.record make fields hmake hfields).ReadBy (r.record make fields hmake hfields)
      fun a => known (fields a) := by
  intro a ha rest
  obtain ⟨hyes, hno⟩ := h (fields a) ha rest
  refine ⟨fun hk => ?_, fun hk => ?_⟩
  · refine (congrArg (Option.bind · _) (hyes hk)).trans ?_
    rw [Option.bind_some, Option.map_some, hmake]
  · exact congrArg (Option.bind · _) (hno hk)

theorem ReadBy.seq {w r : Layout α} {known : α → Prop} (h : w.ReadBy r known) :
    w.seq.ReadBy r.seq fun as => ∀ a ∈ as, known a := by
  intro as has rest
  have hread : r.seq.read (w.seq.write as ++ rest) =
      readMany r.read as.length (as.flatMap w.write ++ rest) := by
    refine (congrArg r.seq.read (List.append_assoc ..)).trans ?_
    exact congrArg (Option.bind · _) (u64.read_write has.1 _)
  rw [hread]
  have hall := has.2
  clear hread has
  induction as with
  | nil => exact ⟨fun _ => rfl, fun hk => absurd (List.forall_mem_nil _) hk⟩
  | cons a as ih =>
      obtain ⟨ha, has⟩ := List.forall_mem_cons.mp hall
      obtain ⟨hyes, hno⟩ := h a ha (as.flatMap w.write ++ rest)
      obtain ⟨hyes', hno'⟩ := ih has
      rw [List.length_cons, readMany, List.flatMap_cons, List.append_assoc]
      refine ⟨fun hk => ?_, fun hk => ?_⟩
      · obtain ⟨hka, hkas⟩ := List.forall_mem_cons.mp hk
        rw [hyes hka, Option.bind_some, hyes' hkas, Option.map_some]
      · by_cases hka : known a
        · have hkas : ¬∀ a ∈ as, known a := fun hkas => hk (List.forall_mem_cons.mpr ⟨hka, hkas⟩)
          rw [hyes hka, Option.bind_some, hno' hkas, Option.map_none]
        · rw [hno hka, Option.bind_none]

end Layout

namespace Variant

variable {α : Type}

/-- The same variant in two releases, with the layouts of its fields read
one by the other. -/
def ReadBy (w r : Variant α) (known : α → Prop) : Prop :=
  ∀ a p, w.get? a = some p → w.layout.Fits p → ∀ rest,
    (known a → (r.layout.read (w.layout.write p ++ rest)).map (fun y => (r.make y.1, y.2)) =
      some (a, rest)) ∧
    (¬known a → r.layout.read (w.layout.write p ++ rest) = none)

theorem ReadBy.refl (v : Variant α) {known : α → Prop} (h : ∀ p, known (v.make p)) :
    v.ReadBy v known := by
  intro a p hget hfits rest
  have ha := v.make_of_get? hget
  refine ⟨fun _ => ?_, fun hk => absurd (ha ▸ h p) hk⟩
  rw [v.layout.read_write hfits, Option.map_some, ha]

theorem ReadBy.of {β : Type} {w r : Layout β} {known' : β → Prop} (h : w.ReadBy r known')
    {make : β → α} {get? : α → Option β} (hmake : ∀ a p, get? a = some p → make p = a)
    (hget : ∀ p, get? (make p) = some p) {known : α → Prop}
    (hknown : ∀ p, known (make p) ↔ known' p) :
    (of w make get? hmake hget).ReadBy (of r make get? hmake hget) known := by
  intro a p hp hfits rest
  obtain ⟨hyes, hno⟩ := h p hfits rest
  have ha : make p = a := hmake a p hp
  refine ⟨fun hk => ?_, fun hk => hno fun hk' => hk (ha ▸ (hknown p).mpr hk')⟩
  have hread := hyes ((hknown p).mp (ha.symm ▸ hk))
  exact (congrArg (Option.map _) hread).trans (congrArg (fun a => some (a, rest)) ha)

end Variant

/-- Releases that have the first `j` and the first `k` variants: values of
a variant that the reader has are read if their fields are, and values of
the others are not. -/
theorem Layout.ReadBy.enum {α : Type} {ws rs : List (Variant α)} {known : α → Prop}
    (h : List.Forall₂ (fun w r => w.ReadBy r known) ws rs) (hws : ws.length ≤ 2 ^ 32)
    (hrs : rs.length ≤ 2 ^ 32) (hw : Variant.Placed ws ws 0) (hr : Variant.Placed rs rs 0)
    (j k : Nat) :
    (Layout.enum (ws.take j) ((List.length_take_le' ..).trans hws) (hw.take j)).ReadBy
      (.enum (rs.take k) ((List.length_take_le' ..).trans hrs) (hr.take k))
      fun a => Variant.place ws a < k ∧ known a := by
  intro a ha rest
  obtain ⟨v, p, hv, hget, hfits, hwrite⟩ := Variant.Fits.at_place ha 0
  obtain ⟨hlt, -⟩ := List.getElem?_eq_some_iff.mp hv
  have hplace : Variant.place ws a = Variant.place (ws.take j) a := by
    conv_lhs => rw [← List.take_append_drop j ws]
    exact List.findIdx_append.trans (if_pos hlt)
  rw [Nat.zero_add, ← hplace] at hwrite
  rw [← hplace, List.getElem?_take] at hv
  split_ifs at hv
  obtain ⟨hindex, hat⟩ := List.getElem?_eq_some_iff.mp hv
  have hindex' : Variant.place ws a < rs.length := h.length_eq ▸ hindex
  have hvariant := (List.forall₂_iff_get.mp h).2 _ hindex hindex'
  have hread : Variant.read (rs.take k) (Variant.write (ws.take j) 0 a ++ rest) =
      (rs.take k)[Variant.place ws a]?.bind fun v' =>
        (v'.layout.read (v.layout.write p ++ rest)).map fun y => (v'.make y.1, y.2) := by
    rw [hwrite, List.append_assoc]
    exact congrArg (Option.bind · _)
      (Layout.u32.read_write (Layout.fits_u32.mpr (hindex.trans_le hws)) _)
  subst hat
  obtain ⟨hyes, hno⟩ := hvariant a p hget hfits rest
  rw [List.getElem?_take] at hread
  refine ⟨fun hk => hread.trans ?_, fun hk => hread.trans ?_⟩
  · rw [if_pos hk.1, List.getElem?_eq_getElem hindex', Option.bind_some]
    exact hyes hk.2
  · by_cases hlt : Variant.place ws a < k
    · rw [if_pos hlt, List.getElem?_eq_getElem hindex', Option.bind_some]
      exact congrArg (Option.map _) (hno fun hka => hk ⟨hlt, hka⟩)
    · rw [if_neg hlt, Option.bind_none]

end Wire

namespace HermesMq

open Classical in
/-- The codec that writes as the layout does. A value that does not fit is
written behind bytes that the layout never reads. -/
noncomputable def Codec.ofLayout {α : Type} [Countable α] (l : Wire.Layout α)
    (escape : List UInt8) (hescape : ∀ more, l.read (escape ++ more) = none) : Codec α where
  enc a := if l.Fits a then l.write a else escape ++ (Codec.ofCountable α).enc a
  dec bytes :=
    match l.decode bytes with
    | some a => .ok a
    | none => (Codec.ofCountable α).dec (bytes.drop escape.length)
  dec_enc a := by
    split_ifs with hfits
    · rw [l.decode_write hfits]
    · rw [Wire.Layout.decode, hescape, Option.map_none, List.drop_left]
      exact Codec.dec_enc _ a

end HermesMq
