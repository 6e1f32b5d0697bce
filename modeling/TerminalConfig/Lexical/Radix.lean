import TerminalConfig.Lexical.Alphabet

/-! # Radix — the three bases that numerals are written in -/

namespace TerminalConfig

/-- The base of a numeral. -/
inductive Radix
  | octal
  | decimal
  | hexadecimal
deriving DecidableEq, Repr

namespace Radix

/-- The base as a number. -/
def base : Radix → Nat
  | octal => 8
  | decimal => 10
  | hexadecimal => 16

/-- The value of a hexadecimal digit of either case. -/
def hexValue? (b : UInt8) : Option Nat :=
  if isDigit b then some (b.toNat - 0x30)
  else if 0x41 ≤ b && b ≤ 0x46 then some (b.toNat - 0x37)
  else if 0x61 ≤ b && b ≤ 0x66 then some (b.toNat - 0x57)
  else none

/-- The value of a digit of this base. -/
def digit? (radix : Radix) (b : UInt8) : Option Nat :=
  (hexValue? b).filter (· < radix.base)

/-- Whether the byte is a digit of this base. -/
def isDigit (radix : Radix) (b : UInt8) : Bool :=
  (radix.digit? b).isSome

/-- The number that the digits spell, the first one weighing most. -/
def value (radix : Radix) (digits : Bytes) : Nat :=
  digits.foldl (fun n b => n * radix.base + (radix.digit? b).getD 0) 0

end Radix

end TerminalConfig
