import TerminalConfig.Lexical.Gap

/-! # Numerals — runs of digits in a base

    The same runs are read in natural numbers and in numeric escapes.  A run
    takes every following digit of its base.  Decimal runs are limited in
    length, leading zeros counted; octal and hexadecimal ones are not. -/

namespace TerminalConfig

/-- The most digits that a decimal numeral has. -/
def maxDecimalDigits : Nat := 4300

/-- The first number that needs more than so many decimal digits. -/
def decimalLimit (digits : Nat) : Nat := Nat.pow 10 digits

/-- The number that a run of digits stands for. -/
def Radix.number (radix : Radix) (digits : Bytes) : Except Fault Nat :=
  if digits.isEmpty then .error (.expectedDigits radix)
  else if radix = .decimal ∧ maxDecimalDigits < digits.length then .error .longNumeral
  else .ok (radix.value digits)

/-- The base whose mark the bytes start with, `0x` or `0o` in either case; the
    base is ten without a mark. -/
def Radix.ofMark : Bytes → Radix
  | a :: b :: _ =>
      if a != ascii '0' then .decimal
      else if b == ascii 'x' || b == ascii 'X' then .hexadecimal
      else if b == ascii 'o' || b == ascii 'O' then .octal
      else .decimal
  | _ => .decimal

namespace Reader

/-- A run of digits, as the number they spell. -/
def numeral (radix : Radix) : Reader Nat :=
  fromStart do
    return radix.number (← takeWhile radix.isDigit)

/-- The base that the next mark gives, and past the mark. -/
def radixMark : Reader Radix := do
  let radix := Radix.ofMark (← remaining)
  if radix ≠ .decimal then
    skipByte
    skipByte
  return radix

/-- A natural number in decimal, or in the base that its mark gives. -/
def natural : Reader Nat := do
  if (← ahead).any isDigit then
    lexeme do
      let radix ← radixMark
      numeral radix
  else
    fail .expectedNatural

theorem run_numeral (radix : Radix) (s : Bytes) :
    (numeral radix).run s =
      match radix.number (s.takeWhile radix.isDigit) with
      | .ok n => .ok (n, s.dropWhile radix.isDigit)
      | .error fault => .error ⟨fault, s, s.dropWhile radix.isDigit⟩ := by
  show (fromStart _).run s = _
  simp only [fromStart, run_bind, run_takeWhile, run_pure]
  cases radix.number (s.takeWhile radix.isDigit) <;> rfl

/-- A number takes at least one digit. -/
theorem progresses_numeral (radix : Radix) : (numeral radix).Progresses := by
  intro s t n h
  rw [run_numeral] at h
  split at h
  · next hn =>
    cases h
    cases s with
    | nil => simp [Radix.number] at hn
    | cons b r =>
        cases hb : radix.isDigit b with
        | false => simp [Radix.number, hb] at hn
        | true =>
            rw [List.dropWhile_cons_of_pos hb]
            exact Nat.lt_succ_of_le (List.dropWhile_suffix _).length_le
  · cases h

/-- A natural number takes at least one digit. -/
theorem progresses_natural : natural.Progresses := by
  intro s t n h
  obtain ⟨next, s', hs, h⟩ := run_bind_eq_ok.mp h
  cases hs
  split at h
  · refine Progresses.lexeme ?_ h
    intro s t n h
    obtain ⟨radix, u, hu, h⟩ := run_bind_eq_ok.mp h
    exact Nat.lt_of_lt_of_le (progresses_numeral radix h) (radixMark.length_rest hu)
  · cases h

end Reader

end TerminalConfig
