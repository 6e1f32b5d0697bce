import TerminalConfig.Lexical.Numeral

/-! # Escapes — code points written with a backslash

    After the backslash stands one of these, tried in this order:

    * a letter or quote that names a code point (`\n`, `\"`);
    * a number: decimal digits, `o` and octal or `x` and hexadecimal ones;
    * `^` and one of the characters from `@` to `_` (`\^[` is 27);
    * the ASCII name of a control character, the longest one that fits, so
      `\SOH` is 1 and never 14 before an `H`.

    A number that is no character, and anything else after the backslash,
    is a fault that lies at the backslash. -/

namespace TerminalConfig

/-- The code point that a letter or quote stands for after a backslash. -/
def simpleEscape? (b : UInt8) : Option CodePoint :=
  if b == ascii 'a' then some (.ofByte 0x07)
  else if b == ascii 'b' then some (.ofByte 0x08)
  else if b == ascii 'f' then some (.ofByte 0x0C)
  else if b == ascii 'n' then some (.ofByte 0x0A)
  else if b == ascii 'r' then some (.ofByte 0x0D)
  else if b == ascii 't' then some (.ofByte 0x09)
  else if b == ascii 'v' then some (.ofByte 0x0B)
  else if b == backslash || b == doubleQuote || b == apostrophe then some (.ofByte b)
  else none

/-- The ASCII names of the control characters, from code 0 on. -/
def controlNames : List String :=
  [ "NUL", "SOH", "STX", "ETX", "EOT", "ENQ", "ACK", "BEL",
    "BS", "HT", "LF", "VT", "FF", "CR", "SO", "SI",
    "DLE", "DC1", "DC2", "DC3", "DC4", "NAK", "SYN", "ETB",
    "CAN", "EM", "SUB", "ESC", "FS", "GS", "RS", "US" ]

/-- The names that an escape may use, with the codes they stand for. -/
def escapeNames : List (String × UInt8) :=
  (controlNames.zipIdx.map fun (name, code) => (name, UInt8.ofNat code))
    ++ [("SP", 0x20), ("DEL", 0x7F)]

/-- The same names, the longer ones first. -/
def escapeNamesByLength : List (String × UInt8) :=
  escapeNames.filter (·.1.length == 3) ++ escapeNames.filter (·.1.length == 2)

/-- The code of the longest name that the bytes start with, and how many bytes
    the name takes. -/
def namedEscape? (s : Bytes) : Option (UInt8 × Nat) :=
  escapeNamesByLength.findSome? fun (name, code) =>
    (dropText? name.toList s).map fun _ => (code, name.length)

/-- The control character that a byte stands for after a caret. -/
def controlEscape? (b : UInt8) : Option CodePoint :=
  if 0x40 ≤ b && b ≤ 0x5F then some (.ofByte (b - 0x40)) else none

/-- The character with a number. -/
def numericEscape (n : Nat) : Except Fault CodePoint :=
  match CodePoint.ofNat? n with
  | some c => if c.isSurrogate then .error .escapeOutOfRange else .ok c
  | none => .error .escapeOutOfRange

namespace Reader

/-- What stands behind the backslash of an escape. -/
def escapeBody : Reader (Except Fault CodePoint) := do
  let s ← remaining
  match s with
  | [] => return .error .openEscape
  | b :: r =>
      if let some c := simpleEscape? b then
        skipByte
        return .ok c
      else if isDigit b then
        return numericEscape (← numeral .decimal)
      else if b == ascii 'o' then
        skipByte
        return numericEscape (← numeral .octal)
      else if b == ascii 'x' then
        skipByte
        return numericEscape (← numeral .hexadecimal)
      else if b == caret then
        match r.head?.bind controlEscape? with
        | some c =>
            skipByte
            skipByte
            return .ok c
        | none => return .error .invalidControlEscape
      else
        match namedEscape? s with
        | some (code, length) =>
            skip (List.drop length) (List.drop_suffix length)
            return .ok (.ofByte code)
        | none => return .error (.unknownEscape b)

/-- An escape, from its backslash on. -/
def escape : Reader CodePoint :=
  fromStart do
    skipByte
    escapeBody

/-- An escape takes at least its backslash. -/
theorem length_escape {b : UInt8} {s t : Bytes} {c : CodePoint}
    (h : escape.run (b :: s) = .ok (c, t)) : t.length ≤ s.length :=
  length_skipByte_bind (run_fromStart_eq_ok.mp h)

end Reader

end TerminalConfig
