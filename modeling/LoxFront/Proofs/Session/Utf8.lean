import LoxFront.Proofs.Session.Encoding
import LoxFront.Session.Utf8
/-!
# Text by its bytes

What encodes a character is what the syntax allows for one, by the numbers
of the characters with so many bytes; so the bytes of a text are the
well-formed ones (`wellFormed_iff`), and what is no text can be told from
the bytes. A text in front does not change what is behind it
(`wellFormed_encode_append`).
-/

namespace LoxFront

/-! ## One character -/

/-- The bytes that go on with a character are 128 to 191. -/
theorem ContinuesChar.bounds {b : UInt8} (h : ContinuesChar b) :
    128 ≤ b.toNat ∧ b.toNat ≤ 191 :=
  ⟨UInt8.le_iff_toNat_le.1 h.1, UInt8.le_iff_toNat_le.1 h.2⟩

theorem continuesChar_ofNat (v : Nat) : ContinuesChar (.ofNat (v % 64 + 128)) := by
  constructor <;> simp only [UInt8.le_iff_toNat_le, UInt8.toNat_ofNat', UInt8.reduceToNat] <;> omega

/-- **Each character is encoded as the syntax has it.** -/
theorem charBytes_encodeChar (c : Char) : CharBytes (String.utf8EncodeChar c) := by
  have hvalid : c.val.toNat < 0xD800 ∨ 0xDFFF < c.val.toNat ∧ c.val.toNat < 0x110000 := c.valid
  simp only [String.utf8EncodeChar]
  generalize c.val.toNat = v at hvalid
  split
  · refine .one ?_
    simp only [UInt8.le_iff_toNat_le, UInt8.toNat_ofNat', UInt8.reduceToNat]
    omega
  split
  · refine .two ?_ ?_ (continuesChar_ofNat v) <;>
      simp only [UInt8.le_iff_toNat_le, UInt8.toNat_ofNat', UInt8.reduceToNat] <;> omega
  split
  · refine .three ?_ ?_ (continuesChar_ofNat (v / 64)) (continuesChar_ofNat v) ?_ ?_ <;>
      simp only [UInt8.le_iff_toNat_le, ← UInt8.toNat_inj, UInt8.toNat_ofNat',
        UInt8.reduceToNat] <;> omega
  · refine .four ?_ ?_ (continuesChar_ofNat (v / 4096)) (continuesChar_ofNat (v / 64))
      (continuesChar_ofNat v) ?_ ?_ <;>
      simp only [UInt8.le_iff_toNat_le, ← UInt8.toNat_inj, UInt8.toNat_ofNat',
        UInt8.reduceToNat] <;> omega

/-- Every valid number is that of a character. -/
theorem exists_char_toNat {v : Nat} (h : v.isValidChar) : ∃ c : Char, c.val.toNat = v := by
  refine ⟨Char.ofNatAux v h, ?_⟩
  change (UInt32.ofNatLT v _).toNat = v
  rw [UInt32.toNat_ofNatLT]

/-- **What the syntax has for a character encodes one**: the bits that the
bytes leave to its number make up a number of a character, and this one is
encoded with so many bytes. -/
theorem exists_char_of_charBytes {bytes : Bytes} (h : CharBytes bytes) :
    ∃ c : Char, bytes = String.utf8EncodeChar c := by
  cases h with
  | @one a ha =>
    simp only [UInt8.le_iff_toNat_le, UInt8.reduceToNat] at ha
    obtain ⟨c, hc⟩ := exists_char_toNat (v := a.toNat) (.inl (by omega))
    refine ⟨c, ?_⟩
    rw [String.utf8EncodeChar, hc, if_pos (by omega), UInt8.ofNat_toNat]
  | @two a b hlow hhigh hb =>
    have hb := hb.bounds
    simp only [UInt8.le_iff_toNat_le, UInt8.reduceToNat] at hlow hhigh
    obtain ⟨c, hc⟩ := exists_char_toNat (v := (a.toNat - 192) * 64 + (b.toNat - 128))
      (.inl (by omega))
    refine ⟨c, ?_⟩
    rw [String.utf8EncodeChar, hc, if_neg (by omega), if_pos (by omega)]
    simp only [List.cons.injEq, ← UInt8.toNat_inj, UInt8.toNat_ofNat', and_true]
    omega
  | @three a b c hlow hhigh hb hc hlong hsurrogate =>
    have hb := hb.bounds
    have hc := hc.bounds
    simp only [UInt8.le_iff_toNat_le, ← UInt8.toNat_inj, UInt8.reduceToNat]
      at hlow hhigh hlong hsurrogate
    obtain ⟨x, hx⟩ := exists_char_toNat
      (v := (a.toNat - 224) * 4096 + (b.toNat - 128) * 64 + (c.toNat - 128))
      (by unfold Nat.isValidChar; omega)
    refine ⟨x, ?_⟩
    rw [String.utf8EncodeChar, hx, if_neg (by omega), if_neg (by omega), if_pos (by omega)]
    simp only [List.cons.injEq, ← UInt8.toNat_inj, UInt8.toNat_ofNat', and_true]
    omega
  | @four a b c d hlow hhigh hb hc hd hlong hlast =>
    have hb := hb.bounds
    have hc := hc.bounds
    have hd := hd.bounds
    simp only [UInt8.le_iff_toNat_le, ← UInt8.toNat_inj, UInt8.reduceToNat]
      at hlow hhigh hlong hlast
    obtain ⟨x, hx⟩ := exists_char_toNat (v := (a.toNat - 240) * 262144 +
      (b.toNat - 128) * 4096 + (c.toNat - 128) * 64 + (d.toNat - 128))
      (by unfold Nat.isValidChar; omega)
    refine ⟨x, ?_⟩
    rw [String.utf8EncodeChar, hx, if_neg (by omega), if_neg (by omega), if_neg (by omega)]
    simp only [List.cons.injEq, ← UInt8.toNat_inj, UInt8.toNat_ofNat', and_true]
    omega

/-! ## Texts -/

/-- Well-formed bytes may stand behind each other. -/
theorem WellFormed.append {front rest : Bytes} (h : WellFormed front) (hrest : WellFormed rest) :
    WellFormed (front ++ rest) := by
  induction h with
  | nil => exact hrest
  | cons hchar _ ih =>
    rw [List.append_assoc]
    exact .cons hchar ih

theorem wellFormed_flatten {lines : List Bytes} (h : ∀ line ∈ lines, WellFormed line) :
    WellFormed lines.flatten := by
  induction lines with
  | nil => exact .nil
  | cons line rest ih =>
    rw [List.forall_mem_cons] at h
    exact h.1.append (ih h.2)

/-- **The bytes of a text are well formed.** -/
theorem wellFormed_encode (text : String) : WellFormed (encode text) := by
  rw [← String.ofList_toList (s := text), encode_ofList]
  induction text.toList with
  | nil => exact .nil
  | cons c rest ih => exact .cons (charBytes_encodeChar c) ih

/-- **Bytes are well formed exactly if they are a text's.** -/
theorem wellFormed_iff {bytes : Bytes} : WellFormed bytes ↔ ∃ text, bytes = encode text := by
  constructor
  · intro h
    induction h with
    | nil => exact ⟨"", rfl⟩
    | cons hchar _ ih =>
      obtain ⟨c, rfl⟩ := exists_char_of_charBytes hchar
      obtain ⟨text, rfl⟩ := ih
      refine ⟨.ofList (c :: text.toList), ?_⟩
      rw [encode_ofList, List.flatMap_cons, ← encode_ofList, String.ofList_toList]
  · rintro ⟨text, rfl⟩
    exact wellFormed_encode text

/-- **Just the bytes that are not well formed are no text.** -/
theorem decode?_eq_none_iff {bytes : Bytes} : decode? bytes = none ↔ ¬WellFormed bytes := by
  rw [wellFormed_iff, Option.eq_none_iff_forall_ne_some]
  simp only [ne_eq, decode?_eq_some_iff, not_exists]

/-- Behind a text the bytes are as well formed as by themselves. -/
theorem wellFormed_encode_append {text : String} {rest : Bytes} :
    WellFormed (encode text ++ rest) ↔ WellFormed rest := by
  refine ⟨fun h => ?_, (wellFormed_encode text).append⟩
  obtain ⟨whole, hwhole⟩ := wellFormed_iff.1 h
  obtain ⟨behind, hbehind⟩ := toList_isPrefix_of_encode ⟨rest, hwhole⟩
  have hsplit : whole = text ++ .ofList behind := by
    rw [← String.toList_inj, String.toList_append, String.toList_ofList, hbehind]
  rw [hsplit, encode_append] at hwhole
  exact List.append_cancel_left hwhole ▸ wellFormed_encode _

end LoxFront
