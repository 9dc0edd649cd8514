/-!
# Bytes

What a session reads and writes is bytes. Text is written as its UTF-8,
and bytes are text if they are well-formed UTF-8, in which case they are
the UTF-8 of one text only.
-/

namespace LoxFront

/-- A run of bytes. -/
abbrev Bytes := List UInt8

/-- The UTF-8 of a text. -/
def encode (text : String) : Bytes := text.toByteArray.data.toList

/-- The text whose UTF-8 these bytes are, if they are well formed. -/
def decode? (bytes : Bytes) : Option String := String.fromUTF8? ⟨bytes.toArray⟩

/-- The encoding as an array of bytes is what the text is made of. -/
theorem toArray_encode (text : String) :
    ByteArray.mk (encode text).toArray = text.toByteArray := by
  rw [encode, Array.toArray_toList]

/-- What is encoded can be decoded. -/
@[simp] theorem decode?_encode (text : String) : decode? (encode text) = some text := by
  rw [decode?, toArray_encode, String.fromUTF8?, dif_pos text.isValidUTF8]
  rfl

/-- **Bytes are the text of one text at most.** -/
theorem decode?_eq_some_iff {bytes : Bytes} {text : String} :
    decode? bytes = some text ↔ bytes = encode text := by
  constructor
  · intro h
    simp only [decode?, String.fromUTF8?] at h
    split at h
    · cases h; simp [encode, String.fromUTF8]
    · cases h
  · rintro rfl
    exact decode?_encode text

/-- A text and another one behind it are encoded one behind the other. -/
theorem encode_append (s t : String) : encode (s ++ t) = encode s ++ encode t := by
  simp [encode]

end LoxFront
