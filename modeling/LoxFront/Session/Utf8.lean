import LoxFront.Session.Bytes
/-!
# The syntax of UTF-8

Which bytes are text, told from the bytes alone. The first byte of a
character says how many go on with it, and three things that fit this
pattern are no character all the same: one written longer than it need be,
a surrogate, and what lies beyond the last character.
-/

namespace LoxFront

/-- A byte that goes on with a character. -/
def ContinuesChar (b : UInt8) : Prop := 0x80 ≤ b ∧ b ≤ 0xBF

/-- **The bytes of one character.** -/
inductive CharBytes : Bytes → Prop
  | one {a : UInt8} : a ≤ 0x7F → CharBytes [a]
  /-- `C0` and `C1` would begin what one byte holds. -/
  | two {a b : UInt8} : 0xC2 ≤ a → a ≤ 0xDF → ContinuesChar b → CharBytes [a, b]
  /-- Behind `E0` is kept out what two bytes hold, and behind `ED` the
  surrogates. -/
  | three {a b c : UInt8} : 0xE0 ≤ a → a ≤ 0xEF → ContinuesChar b → ContinuesChar c →
      (a = 0xE0 → 0xA0 ≤ b) → (a = 0xED → b ≤ 0x9F) → CharBytes [a, b, c]
  /-- Behind `F0` is kept out what three bytes hold, and behind `F4` what
  lies beyond the last character. -/
  | four {a b c d : UInt8} : 0xF0 ≤ a → a ≤ 0xF4 → ContinuesChar b → ContinuesChar c →
      ContinuesChar d → (a = 0xF0 → 0x90 ≤ b) → (a = 0xF4 → b ≤ 0x8F) → CharBytes [a, b, c, d]

/-- **Bytes that are text**: those of characters, one behind the other. -/
inductive WellFormed : Bytes → Prop
  | nil : WellFormed []
  | cons {char rest : Bytes} : CharBytes char → WellFormed rest → WellFormed (char ++ rest)

end LoxFront
