import TerminalConfig.Text.Utf8

/-! # Payloads — the bytes that a literal stands for

    A literal spells bytes: a code point up to `0xFF` is the byte of that
    number, and a higher one the bytes of its UTF-8 encoding.  A literal
    that names a text names it by these bytes.  So the character `é`, put
    into a literal as it is or as its two bytes, gives the same text. -/

namespace TerminalConfig

namespace Text

/-- The bytes that one code point of a literal spells. -/
def payloadOf (c : CodePoint) : Bytes :=
  if c.val ≤ 0xFF then [UInt8.ofNat c.val] else Utf8.encode c

/-- The bytes that a literal spells. -/
def payload (t : Text) : Bytes :=
  t.flatMap payloadOf

/-- The text that a literal names. -/
def payloadText (t : Text) : Text :=
  Utf8.decodeEscaped t.payload

/-- The bytes that any text spells as a literal; none when it holds a
    surrogate, which no literal does. -/
def payload? (t : Text) : Option Bytes :=
  if t.any CodePoint.isSurrogate then none else some t.payload

/-- A text of bytes spells these bytes. -/
theorem payload_ofBytes (s : Bytes) : payload (ofBytes s) = s := by
  induction s with
  | nil => rfl
  | cons b s ih =>
      have hb : b.toNat ≤ 0xFF := Nat.le_of_lt_succ b.toNat_lt
      have : payload (ofBytes (b :: s)) = payloadOf (.ofByte b) ++ payload (ofBytes s) := rfl
      rw [this, ih, payloadOf, CodePoint.val_ofByte, if_pos hb]
      simp

end Text

end TerminalConfig
