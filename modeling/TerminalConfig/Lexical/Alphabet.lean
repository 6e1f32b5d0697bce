import TerminalConfig.Text.CodePoint

/-! # The alphabet — the classes of bytes that tokens are made of

    The language is read byte by byte, and a byte from `0x80` on counts as
    the code point of that number: `0xA0` is a blank and `0xE9` a letter,
    whatever character they are part of in the source text. -/

namespace TerminalConfig

/-- The byte of an ASCII character. -/
def ascii (c : Char) : UInt8 :=
  UInt8.ofNat c.toNat

/-- The byte that ends a line. -/
def newline : UInt8 := 0x0A

/-- The byte `"`. -/
def doubleQuote : UInt8 := 0x22

/-- The byte `&`. -/
def ampersand : UInt8 := 0x26

/-- The byte of the apostrophe. -/
def apostrophe : UInt8 := 0x27

/-- The byte `,`. -/
def comma : UInt8 := 0x2C

/-- The byte `-`. -/
def dash : UInt8 := 0x2D

/-- The byte `[`. -/
def openBracket : UInt8 := 0x5B

/-- The byte of the backslash. -/
def backslash : UInt8 := 0x5C

/-- The byte `]`. -/
def closeBracket : UInt8 := 0x5D

/-- The byte `^`. -/
def caret : UInt8 := 0x5E

/-- The byte `_`. -/
def underscore : UInt8 := 0x5F

/-- The byte of the opening brace. -/
def openBrace : UInt8 := 0x7B

/-- The byte of the closing brace. -/
def closeBrace : UInt8 := 0x7D

/-- Space, tabs, line feed, form feed, carriage return and no-break space. -/
def isBlank (b : UInt8) : Bool :=
  b == 0x20 || 0x09 ≤ b && b ≤ 0x0D || b == 0xA0

/-- An ASCII decimal digit. -/
def isDigit (b : UInt8) : Bool :=
  0x30 ≤ b && b ≤ 0x39

/-- A letter, ASCII or accented, or an ordinal or micro sign. -/
def isLetter (b : UInt8) : Bool :=
  0x41 ≤ b && b ≤ 0x5A || 0x61 ≤ b && b ≤ 0x7A || b == 0xAA || b == 0xB5 || b == 0xBA
    || 0xC0 ≤ b && b != 0xD7 && b != 0xF7

/-- A superscript digit or a fraction: numeric, but no digit of a numeral. -/
def isOtherNumber (b : UInt8) : Bool :=
  b == 0xB2 || b == 0xB3 || b == 0xB9 || 0xBC ≤ b && b ≤ 0xBE

/-- What an identifier starts with. -/
def startsIdentifier (b : UInt8) : Bool :=
  isLetter b || b == underscore

/-- What an identifier goes on with. -/
def continuesIdentifier (b : UInt8) : Bool :=
  isLetter b || isDigit b || isOtherNumber b || b == underscore || b == apostrophe

/-- What is left of the line that the bytes start in. -/
def restOfLine (s : Bytes) : Bytes :=
  s.takeWhile (· != newline)

/-- What follows the line that the bytes start in. -/
def afterLine (s : Bytes) : Bytes :=
  (s.dropWhile (· != newline)).tail

/-- What follows a line is a suffix. -/
theorem suffix_afterLine (s : Bytes) : afterLine s <:+ s :=
  (List.tail_suffix _).trans (List.dropWhile_suffix _)

/-- A line takes at least a byte. -/
theorem length_afterLine {s : Bytes} (h : s ≠ []) : (afterLine s).length < s.length := by
  cases s with
  | nil => exact absurd rfl h
  | cons b r =>
      have hr : (afterLine r).length ≤ r.length := (suffix_afterLine r).length_le
      by_cases hb : b = newline
      · simp [afterLine, hb]
      · have : afterLine (b :: r) = afterLine r := by simp [afterLine, hb]
        rw [this]
        exact Nat.lt_succ_of_le hr

/-- The string whose code points are the bytes. -/
def latinString (s : Bytes) : String :=
  String.ofList (s.map fun b => Char.ofNat b.toNat)

/-- What follows `text` when the bytes start with it, one byte for each of its
    characters. -/
def dropText? : List Char → Bytes → Option Bytes
  | [], s => some s
  | _ :: _, [] => none
  | c :: text, b :: s => if b.toNat = c.toNat then dropText? text s else none

/-- A text takes as many bytes as it has characters. -/
theorem length_dropText? {text : List Char} {s t : Bytes} (h : dropText? text s = some t) :
    t.length + text.length = s.length := by
  induction text generalizing s with
  | nil =>
      cases h
      rfl
  | cons c text ih =>
      cases s with
      | nil => simp [dropText?] at h
      | cons b s =>
          simp only [dropText?] at h
          split at h
          · simp only [List.length_cons, ← ih h, Nat.add_assoc]
          · simp at h

end TerminalConfig
