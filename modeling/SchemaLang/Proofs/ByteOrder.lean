import Mathlib.Data.List.Basic
import SchemaLang.FileSystem

/-!
# The order of texts and of their bytes

Texts are compared character by character.  A system compares names by their bytes, of which a
character has one to four.  The bytes of a smaller text are smaller (`textBytes_lt`): more bytes
come with a greater first byte, and the bytes of characters of one length are their digits.
-/

namespace SchemaLang

/-- The bytes of a text as they stand in a file. -/
def textBytes (text : String) : List UInt8 :=
  text.toUTF8.data.toList

/-- Both lists have a byte at which they differ first, and the byte of the first one is smaller. -/
inductive Apart : List UInt8 → List UInt8 → Prop
  | head {x y : UInt8} (h : x < y) (u v : List UInt8) : Apart (x :: u) (y :: v)
  | tail (x : UInt8) {u v : List UInt8} (h : Apart u v) : Apart (x :: u) (x :: v)

namespace Apart

/-- What stands behind them does not matter. -/
theorem append_lt {u v : List UInt8} (h : Apart u v) (u' v' : List UInt8) : u ++ u' < v ++ v' := by
  induction h with
  | head h u v => exact .rel h
  | tail x _ ih => exact .cons ih

/-- A smaller byte in front. -/
theorem of_lt {m n : Nat} (hn : n < 256) (hlt : m < n) (u v : List UInt8) :
    Apart (UInt8.ofNat m :: u) (UInt8.ofNat n :: v) := by
  refine .head ?_ u v
  rwa [UInt8.lt_iff_toNat_lt, UInt8.toNat_ofNat_of_lt' (Nat.lt_trans hlt hn),
    UInt8.toNat_ofNat_of_lt' hn]

/-- Bytes that are digits: the front ones decide unless they are equal. -/
theorem of_le {m n : Nat} {u v : List UInt8} (hn : n < 256) (hle : m ≤ n)
    (h : m = n → Apart u v) : Apart (UInt8.ofNat m :: u) (UInt8.ofNat n :: v) := by
  rcases Nat.lt_or_eq_of_le hle with hlt | rfl
  · exact of_lt hn hlt u v
  · exact .tail _ (h rfl)

/-- The bytes of a smaller character. -/
theorem utf8EncodeChar {c d : Char} (h : c < d) :
    Apart (String.utf8EncodeChar c) (String.utf8EncodeChar d) := by
  have hlt : c.val.toNat < d.val.toNat := h
  have hbound : d.val.toNat < 0x110000 := by
    rcases d.valid with hd | hd
    · omega
    · exact hd.2
  fun_cases String.utf8EncodeChar c <;> fun_cases String.utf8EncodeChar d
  case case1.case1 => exact of_lt (by omega) hlt [] []
  case case2.case2 =>
    exact of_le (by omega) (by omega) fun _ => of_lt (by omega) (by omega) [] []
  case case3.case3 =>
    exact of_le (by omega) (by omega) fun _ => of_le (by omega) (by omega) fun _ =>
      of_lt (by omega) (by omega) [] []
  case case4.case4 =>
    exact of_le (by omega) (by omega) fun _ => of_le (by omega) (by omega) fun _ =>
      of_le (by omega) (by omega) fun _ => of_lt (by omega) (by omega) [] []
  -- The greater character has no fewer bytes, and with more of them a greater one in front.
  all_goals first
    | omega
    | exact of_lt (by omega) (by omega) _ _

end Apart

theorem textBytes_eq (text : String) :
    textBytes text = text.toList.flatMap String.utf8EncodeChar := by
  rw [textBytes, String.toUTF8_eq_toByteArray, ← String.utf8Encode_toList, List.utf8Encode,
    List.toList_data_toByteArray]

theorem flatMap_utf8EncodeChar_lt {cs ds : List Char} (h : cs < ds) :
    cs.flatMap String.utf8EncodeChar < ds.flatMap String.utf8EncodeChar := by
  induction h with
  | @nil d ds =>
      obtain ⟨x, u, hfront⟩ := List.exists_cons_of_ne_nil (String.utf8EncodeChar_ne_nil (c := d))
      rw [List.flatMap_nil, List.flatMap_cons, hfront, List.cons_append]
      exact List.nil_lt_cons ..
  | @cons c cs ds _ ih =>
      rw [List.flatMap_cons, List.flatMap_cons]
      exact List.append_left_lt ih
  | rel h =>
      rw [List.flatMap_cons, List.flatMap_cons]
      exact (Apart.utf8EncodeChar h).append_lt _ _

theorem textBytes_lt {s t : String} (h : s < t) : textBytes s < textBytes t := by
  rw [textBytes_eq, textBytes_eq]
  exact flatMap_utf8EncodeChar_lt h

end SchemaLang
