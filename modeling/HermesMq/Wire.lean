import Mathlib.Algebra.BigOperators.Group.List.Basic
import Mathlib.Algebra.GroupWithZero.Nat
import Mathlib.Algebra.Order.BigOperators.Group.List
import Mathlib.Algebra.Order.Group.Nat

/-!
# Wire formats

The pieces two serialisation formats are made of: numbers in groups of
seven bits (`varint`), byte strings behind their length (`delimited`), and
the fields of a protobuf message, which leave out a default value.

All the lemmas are about lengths. A number takes as many bytes as it has
groups (`length_varint_le`, `lt_length_varint`).
-/

namespace Wire

/-! ## Numbers and byte strings -/

/-- LEB128: seven bits a byte, lowest first, the high bit set on all bytes
but the last. -/
def varint (n : Nat) : List UInt8 :=
  if n < 128 then [.ofNat n] else .ofNat (n % 128 + 128) :: varint (n / 128)
termination_by n
decreasing_by omega

theorem length_varint_of_lt {n : Nat} (h : n < 128) : (varint n).length = 1 := by
  rw [varint, if_pos h, List.length_singleton]

theorem length_varint_of_ge {n : Nat} (h : 128 ≤ n) :
    (varint n).length = (varint (n / 128)).length + 1 := by
  rw [varint, if_neg (Nat.not_lt.mpr h), List.length_cons]

theorem length_varint_pos (n : Nat) : 0 < (varint n).length := by
  rcases Nat.lt_or_ge n 128 with h | h
  · rw [length_varint_of_lt h]
    exact Nat.one_pos
  · rw [length_varint_of_ge h]
    exact Nat.succ_pos _

theorem length_varint_le {n k : Nat} (h : n < 128 ^ (k + 1)) : (varint n).length ≤ k + 1 := by
  induction k generalizing n with
  | zero =>
      rw [length_varint_of_lt h]
  | succ k ih =>
      rcases Nat.lt_or_ge n 128 with hlt | hge
      · rw [length_varint_of_lt hlt]
        omega
      · have hdiv : n / 128 < 128 ^ (k + 1) := by
          rw [Nat.pow_succ] at h
          exact Nat.div_lt_of_lt_mul (Nat.mul_comm _ _ ▸ h)
        rw [length_varint_of_ge hge]
        exact Nat.succ_le_succ (ih hdiv)

theorem lt_length_varint {n k : Nat} (h : 128 ^ k ≤ n) : k < (varint n).length := by
  induction k generalizing n with
  | zero => exact length_varint_pos n
  | succ k ih =>
      rw [Nat.pow_succ] at h
      have hge : 128 ≤ n := by
        have hpos : 0 < 128 ^ k := Nat.pow_pos (by omega)
        omega
      rw [length_varint_of_ge hge]
      exact Nat.succ_lt_succ (ih ((Nat.le_div_iff_mul_le (by omega)).mpr h))

/-- Bytes behind their length reach `128 ^ (k + 1)` as if the length took
`k + 1` bytes, if those it takes fewer for are out of reach. -/
theorem length_varint_add_le_iff {n k c : Nat} (hc : 128 ^ k + k + c ≤ 128 ^ (k + 1)) :
    (varint n).length + n + c ≤ 128 ^ (k + 1) ↔ n + (k + 1) + c ≤ 128 ^ (k + 1) := by
  constructor
  · intro h
    rcases Nat.lt_or_ge n (128 ^ k) with hshort | hlong
    · omega
    · have hlen := lt_length_varint hlong
      omega
  · intro h
    have hlen : (varint n).length ≤ k + 1 := length_varint_le (by omega)
    omega

/-- A byte string behind its length. -/
def delimited (bytes : List UInt8) : List UInt8 := varint bytes.length ++ bytes

theorem length_delimited (bytes : List UInt8) :
    (delimited bytes).length = (varint bytes.length).length + bytes.length :=
  List.length_append

/-- A sequence behind its length. -/
def seq {α : Type} (enc : α → List UInt8) (l : List α) : List UInt8 :=
  varint l.length ++ l.flatMap enc

theorem sum_map_le {α : Type} {f : α → Nat} {l : List α} {n : Nat} (h : ∀ a ∈ l, f a ≤ n) :
    (l.map f).sum ≤ l.length * n := by
  have hsum : (l.map f).sum ≤ (l.map f).length * n :=
    List.sum_le_card_nsmul _ n (List.forall_mem_map.mpr h)
  rwa [List.length_map] at hsum

/-- A sum of which one term is small. -/
theorem sum_map_add_le {α : Type} {f : α → Nat} {l : List α} {big small : Nat} {a : α}
    (hbig : ∀ b ∈ l, f b ≤ big) (ha : a ∈ l) (hsmall : f a ≤ small) :
    (l.map f).sum + big ≤ l.length * big + small := by
  induction l with
  | nil => cases ha
  | cons b rest ih =>
      obtain ⟨hb, hrest⟩ := List.forall_mem_cons.mp hbig
      rw [List.map_cons, List.sum_cons, List.length_cons, Nat.succ_mul]
      rcases List.mem_cons.mp ha with rfl | ha
      · have hsum := sum_map_le hrest
        omega
      · have hsum := ih hrest ha
        omega

theorem length_seq {α : Type} (enc : α → List UInt8) (l : List α) :
    (seq enc l).length = (varint l.length).length + (l.map fun a => (enc a).length).sum := by
  rw [seq, List.length_append, List.length_flatMap]

theorem length_seq_le {α : Type} {enc : α → List UInt8} {l : List α} {n : Nat}
    (h : ∀ a ∈ l, (enc a).length ≤ n) :
    (seq enc l).length ≤ (varint l.length).length + l.length * n := by
  rw [length_seq]
  exact Nat.add_le_add_left (sum_map_le h) _

/-- A value that may be missing, behind a byte that tells. -/
def option {α : Type} (enc : α → List UInt8) : Option α → List UInt8
  | none => [0]
  | some a => 1 :: enc a

/-! ## Fields of a protobuf message -/

/-- The number of a field and how its value is written. -/
def tag (field wireType : Nat) : List UInt8 := varint (field * 8 + wireType)

theorem length_tag {field wireType : Nat} (h : field * 8 + wireType < 128) :
    (tag field wireType).length = 1 :=
  length_varint_of_lt h

def uintField (field n : Nat) : List UInt8 := if n = 0 then [] else tag field 0 ++ varint n

theorem length_uintField_le {field : Nat} (hfield : field < 16) (n : Nat) :
    (uintField field n).length ≤ 1 + (varint n).length := by
  rw [uintField]
  split
  · exact Nat.zero_le _
  · rw [List.length_append, length_tag (by omega)]

def bytesField (field : Nat) (bytes : List UInt8) : List UInt8 :=
  if bytes = [] then [] else tag field 2 ++ delimited bytes

theorem length_bytesField_le {field : Nat} (hfield : field < 15) (bytes : List UInt8) :
    (bytesField field bytes).length ≤ 1 + (delimited bytes).length := by
  rw [bytesField]
  split
  · exact Nat.zero_le _
  · rw [List.length_append, length_tag (by omega)]

theorem length_bytesField {field : Nat} (hfield : field < 15) {bytes : List UInt8}
    (h : bytes ≠ []) : (bytesField field bytes).length = 1 + (delimited bytes).length := by
  rw [bytesField, if_neg h, List.length_append, length_tag (by omega)]

/-- A message inside a message, which is written even if it is empty. -/
def messageField (field : Nat) (bytes : List UInt8) : List UInt8 := tag field 2 ++ delimited bytes

theorem length_messageField {field : Nat} (hfield : field < 15) (bytes : List UInt8) :
    (messageField field bytes).length = 1 + (delimited bytes).length := by
  rw [messageField, List.length_append, length_tag (by omega)]

/-- Eight bytes, lowest first. -/
def fixed64 (bits : UInt64) : List UInt8 :=
  (List.range 8).map fun i => .ofNat (bits.toNat / 256 ^ i)

/-- A double by its bits; both zeros are the default. -/
def doubleField (field : Nat) (bits : UInt64) : List UInt8 :=
  if bits.toNat % 2 ^ 63 = 0 then [] else tag field 1 ++ fixed64 bits

end Wire
