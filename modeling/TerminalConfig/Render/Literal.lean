import TerminalConfig.Lexical.Escape

/-! # Rendered literals — bytes and characters in the language's own quotes

    A rendered literal is printable ASCII whatever it stands for: a quote
    and a backslash take a backslash, a control character its ASCII name,
    and every higher code its decimal number.  The empty escape stands where
    the next item would be read as part of an escape: between a number and
    a digit, and between `\SO` and an `H`. -/

namespace TerminalConfig

namespace Render

/-- One byte between quotes of the given kind. -/
def byte (quote b : UInt8) : Text :=
  if b == quote || b == backslash then Text.ofBytes [backslash, b]
  else if 0x20 ≤ b && b < 0x7F then Text.ofBytes [b]
  else if b < 0x20 then "\\" ++ Text.ofString (controlNames.getD b.toNat "")
  else if b == 0x7F then "\\DEL"
  else "\\" ++ Text.decimal b.toNat

/-- Whether the escape of `b` would take in a `next` right behind it. -/
def fuses (b next : UInt8) : Bool :=
  0x80 ≤ b && isDigit next || b == 0x0E && next == ascii 'H'

/-- The items of a string literal. -/
def stringItems : Bytes → Text
  | [] => []
  | [b] => byte doubleQuote b
  | b :: next :: s =>
      byte doubleQuote b ++ (if fuses b next then Text.ofString "\\&" else [])
        ++ stringItems (next :: s)

/-- A string literal that spells the bytes. -/
def stringLiteral (s : Bytes) : Text :=
  "\"" ++ stringItems s ++ "\""

/-- A character literal. -/
def charLiteral (c : CodePoint) : Text :=
  if c.val ≤ 0xFF then "\x27" ++ byte apostrophe (UInt8.ofNat c.val) ++ "\x27"
  else "\x27\\" ++ Text.decimal c.val ++ "\x27"

end Render

end TerminalConfig
