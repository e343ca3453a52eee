import TapeLang.Files.Basic

/-!
# Texts as bytes

A text is encoded character by character (`toList_toUTF8`), and bytes are read as a text exactly if
they encode it (`decode?_eq_some_iff`).  The same holds of the bytes of a name
(`Name.toString?_eq_some_iff`).
-/

namespace TapeLang

namespace Text.Utf8

theorem toList_loop (bytes : ByteArray) (i : Nat) (read : List UInt8) :
    ByteArray.toList.loop bytes i read = read.reverse ++ bytes.data.toList.drop i := by
  fun_induction ByteArray.toList.loop bytes i read with
  | case1 i read hlt ih =>
    have hlength : i < bytes.data.toList.length := by simpa using hlt
    rw [ih, List.drop_eq_getElem_cons hlength]
    simp [ByteArray.get!, hlt]
  | case2 i read hge =>
    have hlength : bytes.data.toList.length ≤ i := by simpa using hge
    rw [List.drop_eq_nil_of_le hlength, List.append_nil]

theorem toList_eq_toList_data (bytes : ByteArray) : bytes.toList = bytes.data.toList :=
  toList_loop bytes 0 []

/-- A text is encoded character by character. -/
theorem toList_toUTF8 (text : String) :
    text.toUTF8.toList = text.toList.flatMap String.utf8EncodeChar := by
  rw [toList_eq_toList_data, String.toUTF8_eq_toByteArray]
  conv => lhs; rw [← String.ofList_toList (s := text), String.toByteArray_ofList]
  rw [List.utf8Encode, List.data_toByteArray]

theorem decode?_toUTF8 (text : String) : decode? text.toUTF8 = some text := by
  rw [decode?, String.fromUTF8?, dif_pos (by simpa using text.isValidUTF8)]
  rfl

/-- **Bytes are read as a text** exactly if they encode it. -/
theorem decode?_eq_some_iff {bytes : ByteArray} {text : String} :
    decode? bytes = some text ↔ bytes = text.toUTF8 := by
  constructor
  · intro h
    rw [decode?, String.fromUTF8?] at h
    split at h
    case isTrue hvalid =>
      obtain rfl := Option.some.inj h
      rfl
    case isFalse => cases h
  · rintro rfl
    exact decode?_toUTF8 text

end Text.Utf8

/-- A name is read as a text exactly if it is that text. -/
theorem Name.toString?_eq_some_iff {name : Name} {text : String} :
    name.toString? = some text ↔ name = ofString text := by
  rw [toString?, Text.Utf8.decode?_eq_some_iff, ofString, Text.Utf8.toList_eq_toList_data]
  constructor
  · intro h
    rw [← h, List.data_toByteArray]
  · rintro rfl
    exact ByteArray.ext List.data_toByteArray

end TapeLang
