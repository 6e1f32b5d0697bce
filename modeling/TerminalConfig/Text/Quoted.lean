import TerminalConfig.Text.Category

/-! # Quoted texts — how messages show a text

    A quoted text stands between single quotes, or between double quotes
    when it holds a single quote and no double one.  The quote and the
    backslash are escaped by a backslash, and what is not printable is
    written by its number, so a quoted text is one printable line whatever
    the text holds. -/

namespace TerminalConfig

instance : Coe Char CodePoint := ⟨CodePoint.ofChar⟩

namespace Text

/-- The lower-case digit of a number below 16. -/
def hexDigit (n : Nat) : CodePoint :=
  if n < 10 then CodePoint.ofByte (UInt8.ofNat (0x30 + n))
  else CodePoint.ofByte (UInt8.ofNat (0x57 + n))

/-- The last `width` hexadecimal digits of a number. -/
def hexDigits : (width n : Nat) → Text
  | 0, _ => []
  | width + 1, n => hexDigits width (n / 16) ++ [hexDigit (n % 16)]

/-- The quote that needs fewer escapes, the single one if neither does. -/
def quoteFor (t : Text) : CodePoint :=
  if t.contains (CodePoint.ofChar '\x27') && !t.contains (CodePoint.ofChar '"') then '"'
  else '\x27'

/-- One code point of a quoted text. -/
def quotedOne (quote c : CodePoint) : Text :=
  if c = quote ∨ c = CodePoint.ofChar '\\' then [CodePoint.ofChar '\\', c]
  else if c = CodePoint.ofChar '\n' then "\\n"
  else if c = CodePoint.ofChar '\r' then "\\r"
  else if c = CodePoint.ofChar '\t' then "\\t"
  else if c.isPrintable then [c]
  else if c.val < 0x100 then "\\x" ++ hexDigits 2 c.val
  else if c.val < 0x10000 then "\\u" ++ hexDigits 4 c.val
  else "\\U" ++ hexDigits 8 c.val

/-- The text between quotes, with escapes. -/
def quoted (t : Text) : Text :=
  quoteFor t :: t.flatMap (quotedOne (quoteFor t)) ++ [quoteFor t]

end Text

end TerminalConfig
