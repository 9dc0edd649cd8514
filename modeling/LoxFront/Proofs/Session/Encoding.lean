import LoxFront.Session.Prompt
/-!
# UTF-8, character by character

A text's bytes are those of its characters, one behind the other, and no
character's bytes go on as another's. So of two texts one starts with the
other if its bytes do (`toList_isPrefix_of_encode`). Bytes below 128
stand for the characters of that number only, and so the newline's byte
for the newline (`newlineByte_not_mem_encodeChar`).
-/

namespace LoxFront

/-- The bytes of a text are those of its characters, one after the other. -/
theorem encode_ofList (text : List Char) :
    encode (.ofList text) = text.flatMap String.utf8EncodeChar := by
  rw [encode, String.toByteArray_ofList, List.utf8Encode]
  simp

/-- **Two texts with the same bytes are one.** -/
theorem encode_injective {s t : String} (h : encode s = encode t) : s = t := by
  have hdecoded := congrArg decode? h
  rw [decode?_encode, decode?_encode] at hdecoded
  exact Option.some.inj hdecoded

/-- **Bytes that start alike are of texts that start alike.** -/
theorem toList_isPrefix_of_encode {s t : String} (h : encode s <+: encode t) :
    s.toList <+: t.toList := by
  obtain ⟨rest, hrest⟩ := h
  refine List.isPrefix_of_utf8Encode_append_eq_utf8Encode ⟨rest.toArray⟩ ?_
  rw [String.utf8Encode_toList, String.utf8Encode_toList, ByteArray.ext_iff, ByteArray.data_append]
  apply Array.toList_inj.1
  rw [Array.toList_append]
  exact hrest

theorem newlineByte_not_mem_of_high {bytes : Bytes} (h : ∀ b ∈ bytes, 128 ≤ b.toNat) :
    newlineByte ∉ bytes :=
  fun hmem => absurd (h _ hmem) (by decide)

/-- **The byte of the newline is in no other character's bytes.** -/
theorem newlineByte_not_mem_encodeChar {c : Char} (h : c ≠ '\n') :
    newlineByte ∉ String.utf8EncodeChar c := by
  simp only [String.utf8EncodeChar]
  split
  · next hascii =>
    intro hmem
    have hbyte := congrArg UInt8.toNat (List.mem_singleton.1 hmem)
    rw [UInt8.toNat_ofNat', Nat.mod_eq_of_lt (by omega)] at hbyte
    exact h (Char.ext (UInt32.toNat.inj hbyte.symm))
  · -- each byte of a longer encoding is at least 128
    apply newlineByte_not_mem_of_high
    split
    · simp only [List.forall_mem_cons, UInt8.toNat_ofNat']
      exact ⟨by omega, by omega, by simp⟩
    split
    · simp only [List.forall_mem_cons, UInt8.toNat_ofNat']
      exact ⟨by omega, by omega, by omega, by simp⟩
    · simp only [List.forall_mem_cons, UInt8.toNat_ofNat']
      exact ⟨by omega, by omega, by omega, by omega, by simp⟩

end LoxFront
