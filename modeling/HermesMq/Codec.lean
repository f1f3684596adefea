import Mathlib.Data.Countable.Basic
import Mathlib.Data.Prod.Lex
import Mathlib.Logic.Equiv.List
import HermesMq.OrdMap

/-!
# Codecs

A serialisation format is taken by its law only: what was encoded decodes
to itself. Nothing is said about bytes that no encoder wrote, which may
decode to an error or to any value.

Every countable type has such a codec (`Codec.ofCountable`), so a result
about all codecs is not about none.
-/

namespace HermesMq

/-- A serialiser and a fallible deserialiser that inverts it. -/
structure Codec (α : Type) where
  enc : α → List UInt8
  dec : List UInt8 → Except String α
  dec_enc : ∀ a, dec (enc a) = .ok a

namespace Codec

attribute [simp] dec_enc

theorem enc_inj {α : Type} (c : Codec α) {a b : α} (h : c.enc a = c.enc b) : a = b := by
  have hdec := c.dec_enc a
  rw [h, c.dec_enc] at hdec
  exact (Except.ok.inj hdec).symm

/-- Decoding a list of encoded values, one after the other. -/
theorem mapM_dec {α : Type} (c : Codec α) (l : List α) :
    (l.map c.enc).mapM c.dec = .ok l := by
  induction l with
  | nil => rfl
  | cons a rest ih =>
      rw [List.map_cons, List.mapM_cons, c.dec_enc, ih]
      rfl

open Classical in
/-- Number the values and write the number in unary. -/
noncomputable def ofCountable (α : Type) [Countable α] : Codec α :=
  let number : α → Nat := (exists_injective_nat α).choose
  have inj : Function.Injective number := (exists_injective_nat α).choose_spec
  { enc := fun a => List.replicate (number a) 0
    dec := fun bytes =>
      if h : ∃ a, List.replicate (number a) 0 = bytes then .ok h.choose
      else .error "no value has this encoding"
    dec_enc := by
      intro a
      have h : ∃ b, List.replicate (number b) (0 : UInt8) = List.replicate (number a) 0 :=
        ⟨a, rfl⟩
      have same : h.choose = a := inj (by simpa using congrArg List.length h.choose_spec)
      rw [dif_pos h, same] }

/-- The codec with short encodings for the listed values: zeros, as many
as its place in the list. The others are marked by a one. -/
def shorten {α : Type} [DecidableEq α] (c : Codec α) (short : List α) : Codec α where
  enc a := if a ∈ short then List.replicate (short.idxOf a) 0 else 1 :: c.enc a
  dec bytes :=
    if bytes.head? = some 1 then c.dec bytes.tail
    else
      match short[bytes.length]? with
      | some a => .ok a
      | none => .error "no value has this encoding"
  dec_enc := by
    intro a
    split_ifs with hmem hhead hhead
    · have hone := List.eq_of_mem_replicate (List.mem_of_head? hhead)
      cases hone
    · rw [List.length_replicate, List.getElem?_idxOf hmem]
    · exact c.dec_enc a
    · exact absurd rfl hhead

end Codec

/-- A format whose decoder ignores what comes after a value, with an
encoder that may fail. No proper prefix of an encoding decodes, and the
encoding decodes to nothing but the value. -/
structure StreamCodec (α : Type) where
  enc : α → Option (List UInt8)
  dec : List UInt8 → Option α
  dec_prefix : ∀ {a a' bytes p}, enc a = some bytes → p <+: bytes → dec p = some a' →
    p = bytes ∧ a' = a

/-- The format of a few values, each by its place in a list. -/
def StreamCodec.ofList {α : Type} [DecidableEq α] (l : List α) (hl : l.length ≤ 256) :
    StreamCodec α where
  enc a := if a ∈ l then some [.ofNat (l.idxOf a)] else none
  dec bytes := bytes.head?.bind fun b => l[b.toNat]?
  dec_prefix := by
    intro a a' bytes p henc hp hdec
    split_ifs at henc with hmem
    cases henc
    cases p with
    | nil => cases hdec
    | cons b p =>
        obtain ⟨rfl, hnil⟩ := List.cons_prefix_cons.mp hp
        rw [List.prefix_nil.mp hnil]
        have hidx : (UInt8.ofNat (l.idxOf a)).toNat = l.idxOf a := by
          have hlt := List.idxOf_lt_length_of_mem hmem
          rw [UInt8.toNat_ofNat']
          omega
        change l[(UInt8.ofNat (l.idxOf a)).toNat]? = some a' at hdec
        rw [hidx, List.getElem?_idxOf hmem] at hdec
        exact ⟨rfl, (Option.some.inj hdec).symm⟩

/-! ## Countable building blocks -/

instance instCountableByte : Countable UInt8 :=
  Function.Injective.countable (f := UInt8.toNat) fun _ _ => UInt8.toNat_inj.mp

instance instCountableChar : Countable Char :=
  Function.Injective.countable (f := Char.toNat) fun _ _ => Char.toNat_inj.mp

instance instCountableText : Countable String :=
  Function.Injective.countable (f := String.toList) fun _ _ => String.toList_inj.mp

instance instCountableLex {α β : Type} [Countable α] [Countable β] : Countable (α ×ₗ β) :=
  inferInstanceAs (Countable (α × β))

instance instCountableOrdMap {K V : Type} [LinearOrder K] [Countable K] [Countable V] :
    Countable (OrdMap K V) :=
  Function.Injective.countable (f := OrdMap.entries) fun a b h => by
    cases a; cases b; cases h; rfl

end HermesMq
