import TerminalConfig.Lexical.Radix
import TerminalConfig.Text.Quoted

/-! # Faults — what can be wrong with the text of a configuration

    A fault is a cause; where it lies is said by the `Failure` that carries
    it.  A lexical fault is a malformed token, a mismatch a token that does
    not fit what is expected at its place. -/

namespace TerminalConfig

/-- The causes for which reading stops. -/
inductive Fault
  | openComment
  | expectedIdentifier
  | expectedSymbol (symbol : String)
  | expectedNatural
  | expectedDigits (radix : Radix)
  | longNumeral
  | expectedChar
  | invalidChar
  | openChar
  | expectedString
  | openString
  | controlInString
  | openGap
  | openEscape
  | escapeOutOfRange
  | invalidControlEscape
  | unknownEscape (byte : UInt8)
  | unexpectedByte (byte : UInt8)
  | expectedKeyword (keyword found : String)
  | unknownVariant (enumeration found : String)
  | noShape
deriving DecidableEq, Repr

namespace Fault

/-- What a fault says about: the token itself, its place among others, or the
    lack of anything to expect there. -/
inductive Kind
  | lexical
  | mismatch
  | noShape
deriving DecidableEq, Repr

/-- The kind of a fault. -/
def kind : Fault → Kind
  | openComment | expectedDigits _ | longNumeral | invalidChar | openChar | openString
  | controlInString | openGap | openEscape | escapeOutOfRange | invalidControlEscape
  | unknownEscape _ | unexpectedByte _ => .lexical
  | expectedIdentifier | expectedSymbol _ | expectedNatural | expectedChar | expectedString
  | expectedKeyword _ _ | unknownVariant _ _ => .mismatch
  | noShape => .noShape

/-- The words for a fault. -/
def message : Fault → Text
  | openComment => "unterminated block comment"
  | expectedIdentifier => "expected identifier"
  | expectedSymbol symbol => "expected " ++ Text.quoted symbol
  | expectedNatural => "expected natural number"
  | expectedDigits radix => "expected base-" ++ Text.decimal radix.base ++ " digits"
  | longNumeral => "numeric literal too long"
  | expectedChar => "expected character literal"
  | invalidChar => "invalid character literal"
  | openChar => "unterminated character literal"
  | expectedString => "expected string literal"
  | openString => "unterminated string literal"
  | controlInString => "unescaped control character in string literal"
  | openGap => "unterminated string gap"
  | openEscape => "unterminated escape sequence"
  | escapeOutOfRange => "numeric escape out of range"
  | invalidControlEscape => "invalid control escape"
  | unknownEscape byte => "invalid escape sequence \\" ++ [CodePoint.ofByte byte]
  | unexpectedByte byte => "unexpected character " ++ Text.quoted [CodePoint.ofByte byte]
  | expectedKeyword keyword found =>
      "expected " ++ Text.quoted keyword ++ ", got " ++ Text.quoted found
  | unknownVariant enumeration found =>
      "unknown " ++ Text.ofString enumeration ++ " variant " ++ Text.quoted found
  | noShape => "not a shape: None"

end Fault

end TerminalConfig
