import TypedRecords.Text.Digits
import TypedRecords.Text.Parts
import TypedRecords.Text.Utf8

/-! Texts come back from their parts and from their bytes, and show the digits of bytes. -/
namespace TypedRecords.Text

theorem splitChars_of_not_mem {separator : Char} {cs : List Char} (h : separator ∉ cs) :
    splitChars separator cs = [cs] := by
  induction cs with
  | nil => rfl
  | cons c rest ih =>
    simp only [List.mem_cons, not_or] at h
    simp [splitChars, ih h.2, Ne.symm h.1]

theorem splitChars_append {separator : Char} {cs more : List Char} (h : separator ∉ cs) :
    splitChars separator (cs ++ separator :: more) = cs :: splitChars separator more := by
  induction cs with
  | nil => simp [splitChars]
  | cons c rest ih =>
    simp only [List.mem_cons, not_or] at h
    simp [splitChars, ih h.2, Ne.symm h.1]

theorem toList_loop (bytes : ByteArray) (i : Nat) (front : List UInt8) :
    ByteArray.toList.loop bytes i front = front.reverse ++ bytes.data.toList.drop i := by
  fun_induction ByteArray.toList.loop bytes i front with
  | case1 i front inside ih =>
    have here : i < bytes.data.toList.length := inside
    have next : bytes.get! i = bytes.data.toList[i] := getElem!_pos bytes.data i inside
    have split := List.drop_eq_getElem_cons here
    rw [ih, split, next, List.reverse_cons, List.append_assoc]
    rfl
  | case2 i front outside =>
    have past : bytes.data.toList.length ≤ i := Nat.le_of_not_lt outside
    simp [List.drop_eq_nil_of_le past]

theorem ofUtf8?_utf8 (s : String) : ofUtf8? (utf8 s) = some s := by
  have whole : ByteArray.mk (utf8 s).toArray = s.toByteArray := by
    simp [utf8, ByteArray.toList, toList_loop]
  simp [ofUtf8?, whole, String.fromUTF8?, s.isValidUTF8, String.fromUTF8]

def hexDigits (bytes : List UInt8) : List Char :=
  bytes.flatMap fun b => [hexDigit (b.toNat / 16), hexDigit b.toNat]

theorem toList_foldl_hexByte (bytes : List UInt8) (text : String) :
    (bytes.foldl (fun text b => text ++ hexByte b) text).toList = text.toList ++ hexDigits bytes := by
  induction bytes generalizing text with
  | nil => simp [hexDigits]
  | cons b rest ih =>
    rw [List.foldl_cons, ih]
    simp [hexByte, hexDigits]

theorem toList_hex (bytes : List UInt8) : (hex bytes).toList = hexDigits bytes := by
  simpa [hex] using toList_foldl_hexByte bytes ""

end TypedRecords.Text
