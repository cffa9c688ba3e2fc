import LazyConfig.Value.Record
import Mathlib.Tactic.SplitIfs

/-!
Names in the order of their bytes. Characters are encoded so that the bytes of the smaller one come first, whatever
stands behind them; so the order of texts, which goes by characters, is the order of their bytes.
-/

namespace LazyConfig

/-- The bytes of a text. -/
def bytes (text : String) : List UInt8 :=
  text.toByteArray.data.toList

/-- The bytes of a text are those of its characters, one after the other. -/
theorem bytes_eq (text : String) : bytes text = text.toList.flatMap String.utf8EncodeChar := by
  have encoded : text.toByteArray = text.toList.utf8Encode := by
    rw [← String.toByteArray_ofList, String.ofList_toList]
  rw [bytes, encoded, List.utf8Encode, List.toList_data_toByteArray]

theorem byte_lt_iff (left right : Nat) : UInt8.ofNat left < UInt8.ofNat right ↔ left % 256 < right % 256 := by
  rw [UInt8.lt_iff_toNat_lt]
  simp

theorem byte_eq_iff (left right : Nat) : UInt8.ofNat left = UInt8.ofNat right ↔ left % 256 = right % 256 := by
  rw [← UInt8.toNat_inj]
  simp

/-- Bytes behind the first one of a character are in the order of their digits. -/
theorem digit_lt_iff (left right : Nat) :
    UInt8.ofNat (left % 64 + 128) < UInt8.ofNat (right % 64 + 128) ↔ left % 64 < right % 64 := by
  rw [byte_lt_iff]
  omega

theorem digit_eq_iff (left right : Nat) :
    UInt8.ofNat (left % 64 + 128) = UInt8.ofNat (right % 64 + 128) ↔ left % 64 = right % 64 := by
  rw [byte_eq_iff]
  omega

/-- There are not more than so many characters. -/
theorem char_toNat_lt (char : Char) : char.val.toNat < 1114112 := by
  rcases char.valid with less | ⟨-, less⟩ <;> omega

/-- The bytes of the smaller character come first, whatever stands behind them. -/
theorem utf8EncodeChar_append_lt {left right : Char} (less : left < right) (more others : List UInt8) :
    String.utf8EncodeChar left ++ more < String.utf8EncodeChar right ++ others := by
  have less : left.val.toNat < right.val.toNat := less
  have least := char_toNat_lt left
  have most := char_toNat_lt right
  unfold String.utf8EncodeChar
  generalize left.val.toNat = small at *
  generalize right.val.toNat = large at *
  have two (char : Nat) : char / 4096 = char / 64 / 64 := by omega
  have three (char : Nat) : char / 262144 = char / 64 / 64 / 64 := by omega
  -- More bytes begin with a larger one, and as many bytes hold the digits of the character.
  dsimp only
  split_ifs <;>
    simp only [List.cons_append, List.nil_append, List.cons_lt_cons_iff, digit_lt_iff, digit_eq_iff, byte_lt_iff,
      byte_eq_iff, two, three] <;> omega

/-- Texts are in the order of their bytes. -/
theorem bytes_lt {left right : String} (less : left < right) : bytes left < bytes right := by
  have less : left.toList < right.toList := less
  rw [bytes_eq, bytes_eq]
  generalize left.toList = small at *
  generalize right.toList = large at *
  -- By induction on the characters: the first ones that differ decide, by the order of their
  -- encodings.
  induction small generalizing large with
  | nil =>
    cases large with
    | nil => exact absurd less (List.lt_irrefl [])
    | cons char rest =>
      -- The shorter text has no bytes where the longer one has some.
      rw [List.flatMap_nil, List.flatMap_cons]
      cases encoded : String.utf8EncodeChar char with
      | nil => exact absurd encoded String.utf8EncodeChar_ne_nil
      | cons byte others => exact List.nil_lt_cons ..
  | cons char rest ih =>
    cases large with
    | nil => exact absurd less (List.not_lt_nil _)
    | cons other others =>
      rw [List.flatMap_cons, List.flatMap_cons]
      rcases List.cons_lt_cons_iff.mp less with before | ⟨rfl, behind⟩
      · exact utf8EncodeChar_append_lt before _ _
      · exact List.append_left_lt (ih others behind)

end LazyConfig
