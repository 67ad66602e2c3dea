/-!
# UTF-8

The bytes of a text and the text of some bytes. Decoding is strict: it accepts exactly what encoding
produces (`decode_eq_some_iff`), so surrogates, overlong forms and cut characters have no text.
-/

namespace Sexp.Utf8

/-- The UTF-8 bytes of a text. -/
def encode (text : List Char) : List UInt8 :=
  text.flatMap String.utf8EncodeChar

/-- The text whose UTF-8 bytes these are, if there is one. -/
def decode (bytes : List UInt8) : Option (List Char) :=
  (String.fromUTF8? bytes.toByteArray).map String.toList

@[simp] theorem encode_nil : encode [] = [] := rfl

@[simp] theorem encode_cons (c : Char) (text : List Char) :
    encode (c :: text) = String.utf8EncodeChar c ++ encode text := rfl

@[simp] theorem encode_append (a b : List Char) : encode (a ++ b) = encode a ++ encode b :=
  List.flatMap_append

theorem toByteArray_encode (text : List Char) : (encode text).toByteArray = text.utf8Encode := rfl

theorem decode_encode (text : List Char) : decode (encode text) = some text := by
  have valid : (encode text).toByteArray.IsValidUTF8 := ⟨text, rfl⟩
  have same : String.fromUTF8 (encode text).toByteArray valid = String.ofList text :=
    String.toByteArray_inj.1 (by simp [String.fromUTF8, toByteArray_encode])
  simp [decode, String.fromUTF8?, valid, same]

theorem eq_encode_of_decode {bytes : List UInt8} {text : List Char} (h : decode bytes = some text) :
    bytes = encode text := by
  obtain ⟨s, hs, rfl⟩ := Option.map_eq_some_iff.1 h
  unfold String.fromUTF8? at hs
  split at hs
  · cases hs
    exact List.toByteArray_inj.1 (by rw [toByteArray_encode, String.utf8Encode_toList]; rfl)
  · cases hs

theorem decode_eq_some_iff {bytes : List UInt8} {text : List Char} :
    decode bytes = some text ↔ bytes = encode text :=
  ⟨eq_encode_of_decode, fun h => h ▸ decode_encode text⟩

/-- Every character takes at least one byte. -/
theorem length_le_length_encode (text : List Char) : text.length ≤ (encode text).length := by
  induction text with
  | nil => simp
  | cons c text ih =>
    have := Char.utf8Size_pos c
    simp only [encode_cons, List.length_append, String.length_utf8EncodeChar, List.length_cons]
    omega

theorem length_le_of_decode {bytes : List UInt8} {text : List Char} (h : decode bytes = some text) :
    text.length ≤ bytes.length :=
  eq_encode_of_decode h ▸ length_le_length_encode text

end Sexp.Utf8
