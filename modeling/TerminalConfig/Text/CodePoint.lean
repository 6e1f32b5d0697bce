/-! # Code points and texts — what literals, names and messages are made of

    A text here may hold any code point, surrogates included: the values of
    the environment and of literals are bytes that need not be valid UTF-8,
    and the bytes that are not are kept as surrogates (see `Text.Utf8`).
    A string has no surrogates, so a text is a list of code points;
    `Text.ofString` embeds strings and `Text.toString?` leads back. -/

namespace TerminalConfig

/-- A Unicode code point; a surrogate is one. -/
structure CodePoint where
  val : Nat
  val_lt : val < 0x110000
deriving DecidableEq

/-- A sequence of code points. -/
abbrev Text := List CodePoint

/-- A sequence of bytes. -/
abbrev Bytes := List UInt8

namespace CodePoint

/-- The code point with the number `n`, if there is one. -/
def ofNat? (n : Nat) : Option CodePoint :=
  if h : n < 0x110000 then some ⟨n, h⟩ else none

/-- Every byte is the number of a code point. -/
def ofByte (b : UInt8) : CodePoint :=
  ⟨b.toNat, Nat.lt_trans b.toNat_lt (by decide)⟩

/-- Every character is a code point. -/
def ofChar (c : Char) : CodePoint :=
  ⟨c.toNat, by
    have h : c.val.toNat < 0xD800 ∨ 0xDFFF < c.val.toNat ∧ c.val.toNat < 0x110000 := c.valid
    show c.val.toNat < 0x110000
    omega⟩

/-- The code points that are no characters. -/
def isSurrogate (c : CodePoint) : Bool :=
  0xD800 ≤ c.val && c.val ≤ 0xDFFF

/-- The character with this code point; a surrogate has none. -/
def toChar? (c : CodePoint) : Option Char :=
  if c.isSurrogate then none else some (Char.ofNat c.val)

/-- Two code points with one number are the same. -/
@[ext] theorem ext {a b : CodePoint} (h : a.val = b.val) : a = b := by
  cases a
  cases b
  cases h
  rfl

@[simp] theorem val_ofByte (b : UInt8) : (ofByte b).val = b.toNat := rfl

@[simp] theorem val_ofChar (c : Char) : (ofChar c).val = c.toNat := rfl

end CodePoint

namespace Text

/-- The code points of a string. -/
def ofString (s : String) : Text :=
  s.toList.map CodePoint.ofChar

/-- The code points whose numbers are the given bytes. -/
def ofBytes (bytes : Bytes) : Text :=
  bytes.map CodePoint.ofByte

/-- A number in decimal digits. -/
def decimal (n : Nat) : Text :=
  (Nat.toDigits 10 n).map CodePoint.ofChar

/-- The string with these code points; none when one of them is a surrogate. -/
def toString? (t : Text) : Option String :=
  (t.mapM CodePoint.toChar?).map String.ofList

instance : Coe String Text := ⟨ofString⟩

@[simp] theorem ofBytes_cons (b : UInt8) (bytes : Bytes) :
    ofBytes (b :: bytes) = CodePoint.ofByte b :: ofBytes bytes := rfl

@[simp] theorem ofBytes_append (a b : Bytes) :
    ofBytes (a ++ b) = ofBytes a ++ ofBytes b :=
  List.map_append

end Text

end TerminalConfig
