import TerminalConfig.Lexical.Radix
import Mathlib.Algebra.Group.Nat.Defs

/-! # Digits — what the digits of a base spell

    The digits that a number is printed with in a base spell this number
    (`Radix.value_printed`).  It can be written in other ways, too: zeros in
    front say nothing, and a letter counts the same in either case.
    `Radix.IsNumeral` takes these ways together, and each of them spells the
    same number (`Radix.IsNumeral.value_eq`). -/

namespace TerminalConfig

/-- The same letter in lower case; any other byte stays. -/
def lower (b : UInt8) : UInt8 :=
  if 0x41 ≤ b ∧ b ≤ 0x5A then b + 0x20 else b

/-- A capital letter stands 32 places in front of its small one. -/
theorem toNat_lower {b : UInt8} (h : 0x41 ≤ b ∧ b ≤ 0x5A) :
    (lower b).toNat = b.toNat + 0x20 := by
  have hhigh : b.toNat ≤ 0x5A := UInt8.le_iff_toNat_le.mp h.2
  rw [lower, if_pos h, UInt8.toNat_add]
  show (b.toNat + 0x20) % 2 ^ 8 = b.toNat + 0x20
  omega

namespace Radix

/-! ## Single digits -/

theorem one_lt_base (radix : Radix) : 1 < radix.base := by
  cases radix <;> decide

theorem base_le (radix : Radix) : radix.base ≤ 16 := by
  cases radix <;> decide

/-- A value counts as a digit when it is below the base. -/
theorem filter_base {radix : Radix} {n : Nat} :
    (some n).filter (· < radix.base) = if n < radix.base then some n else none := by
  by_cases h : n < radix.base <;> simp [Option.filter, h]

/-- The character that a value is printed as is a digit of this value. -/
theorem digit?_digitChar {radix : Radix} {d : Nat} (h : d < radix.base) :
    radix.digit? (ascii (Nat.digitChar d)) = some d := by
  have hhex : ∀ d < 16, hexValue? (ascii (Nat.digitChar d)) = some d := by decide
  rw [digit?, hhex d (Nat.lt_of_lt_of_le h radix.base_le), filter_base, if_pos h]

/-- The value of a hexadecimal digit, by the number of its byte. -/
theorem hexValue?_eq (b : UInt8) :
    hexValue? b =
      if 0x30 ≤ b.toNat ∧ b.toNat ≤ 0x39 then some (b.toNat - 0x30)
      else if 0x41 ≤ b.toNat ∧ b.toNat ≤ 0x46 then some (b.toNat - 0x37)
      else if 0x61 ≤ b.toNat ∧ b.toNat ≤ 0x66 then some (b.toNat - 0x57)
      else none := by
  simp only [hexValue?, TerminalConfig.isDigit, Bool.and_eq_true, decide_eq_true_eq,
    UInt8.le_iff_toNat_le, UInt8.toNat_ofNat]

/-- A letter has the value that it has in lower case. -/
theorem hexValue?_lower (b : UInt8) : hexValue? (lower b) = hexValue? b := by
  by_cases h : 0x41 ≤ b ∧ b ≤ 0x5A
  · have hlow : 0x41 ≤ b.toNat := UInt8.le_iff_toNat_le.mp h.1
    have hhigh : b.toNat ≤ 0x5A := UInt8.le_iff_toNat_le.mp h.2
    rw [hexValue?_eq, hexValue?_eq, toNat_lower h]
    by_cases hhex : b.toNat ≤ 0x46
    · have hvalue : b.toNat + 0x20 - 0x57 = b.toNat - 0x37 := by omega
      rw [if_neg (by omega), if_neg (by omega), if_pos (by omega), if_neg (by omega),
        if_pos (by omega), hvalue]
    · -- the letters behind `F` are no digits in either case
      rw [if_neg (by omega), if_neg (by omega), if_neg (by omega), if_neg (by omega),
        if_neg (by omega), if_neg (by omega)]
  · rw [lower, if_neg h]

theorem digit?_lower (radix : Radix) (b : UInt8) : radix.digit? (lower b) = radix.digit? b := by
  rw [digit?, digit?, hexValue?_lower]

/-! ## Runs of digits -/

/-- A digit behind others weighs one, and the others the base. -/
theorem value_concat (radix : Radix) (digits : Bytes) (b : UInt8) :
    radix.value (digits ++ [b]) = radix.value digits * radix.base + (radix.digit? b).getD 0 := by
  rw [value, List.foldl_append]
  rfl

/-- Zeros behind digits multiply by the base. -/
theorem value_append_zeros (radix : Radix) (digits : Bytes) (k : Nat) :
    radix.value (digits ++ List.replicate k (ascii '0')) = radix.value digits * radix.base ^ k := by
  have hzero : (radix.digit? (ascii '0')).getD 0 = 0 := by
    cases radix <;> decide
  induction k with
  | zero => rw [List.replicate_zero, List.append_nil, Nat.pow_zero, Nat.mul_one]
  | succ k ih =>
      rw [List.replicate_succ', ← List.append_assoc, value_concat, ih, hzero, Nat.add_zero,
        Nat.pow_succ, Nat.mul_assoc]

/-- Zeros in front of digits say nothing. -/
theorem value_zeros_append (radix : Radix) (k : Nat) (digits : Bytes) :
    radix.value (List.replicate k (ascii '0') ++ digits) = radix.value digits := by
  have hzero : (radix.digit? (ascii '0')).getD 0 = 0 := by
    cases radix <;> decide
  induction k with
  | zero => rfl
  | succ k ih =>
      rw [List.replicate_succ, List.cons_append, value, List.foldl_cons, hzero,
        Nat.zero_mul, Nat.add_zero, ← value, ih]

/-- Digits spell the same number in lower case. -/
theorem value_map_lower (radix : Radix) (digits : Bytes) :
    radix.value (digits.map lower) = radix.value digits := by
  simp only [value, List.foldl_map, digit?_lower]

/-- The bytes that a number is printed with in a base. -/
def printed (radix : Radix) (n : Nat) : Bytes :=
  (Nat.toDigits radix.base n).map ascii

/-- A number below the base is printed as one digit. -/
theorem printed_of_lt {radix : Radix} {n : Nat} (h : n < radix.base) :
    radix.printed n = [ascii (Nat.digitChar n)] := by
  rw [printed, Nat.toDigits_of_lt_base h]
  rfl

/-- The last digit is what is left when the others are divided off. -/
theorem printed_of_le {radix : Radix} {n : Nat} (h : radix.base ≤ n) :
    radix.printed n
      = radix.printed (n / radix.base) ++ [ascii (Nat.digitChar (n % radix.base))] := by
  rw [printed, Nat.toDigits_of_base_le radix.one_lt_base h, List.map_append]
  rfl

/-- What a number is printed with are digits of the base. -/
theorem isDigit_of_mem_printed {radix : Radix} {n : Nat} {b : UInt8} (h : b ∈ radix.printed n) :
    radix.isDigit b := by
  have hdigit : ∀ {d}, d < radix.base → radix.isDigit (ascii (Nat.digitChar d)) := by
    intro d hd
    rw [isDigit, digit?_digitChar hd]
    rfl
  induction n using Nat.strongRecOn with
  | ind n ih =>
    by_cases hn : n < radix.base
    · rw [printed_of_lt hn, List.mem_singleton] at h
      exact h ▸ hdigit hn
    · have hpos : 0 < radix.base := Nat.lt_trans Nat.zero_lt_one radix.one_lt_base
      have hle : radix.base ≤ n := Nat.le_of_not_lt hn
      rw [printed_of_le hle, List.mem_append, List.mem_singleton] at h
      rcases h with h | rfl
      · exact ih _ (Nat.div_lt_self (Nat.lt_of_lt_of_le hpos hle) radix.one_lt_base) h
      · exact hdigit (Nat.mod_lt n hpos)

/-- What a number is printed with spells it. -/
theorem value_printed (radix : Radix) (n : Nat) : radix.value (radix.printed n) = n := by
  induction n using Nat.strongRecOn with
  | ind n ih =>
    by_cases hn : n < radix.base
    · rw [printed_of_lt hn, ← List.nil_append [ascii _], value_concat, digit?_digitChar hn]
      show 0 * radix.base + n = n
      omega
    · have hpos : 0 < radix.base := Nat.lt_trans Nat.zero_lt_one radix.one_lt_base
      have hle : radix.base ≤ n := Nat.le_of_not_lt hn
      have hless := Nat.div_lt_self (Nat.lt_of_lt_of_le hpos hle) radix.one_lt_base
      rw [printed_of_le hle, value_concat, ih _ hless, digit?_digitChar (Nat.mod_lt n hpos)]
      exact Nat.div_add_mod' n radix.base

/-! ## All ways to write a number -/

/-- The digits are those that a number is printed with, behind so many zeros, and
    with each letter in either case. -/
def IsNumeral (radix : Radix) (zeros n : Nat) (digits : Bytes) : Prop :=
  digits.map lower = List.replicate zeros (ascii '0') ++ radix.printed n

instance (radix : Radix) (zeros n : Nat) (digits : Bytes) :
    Decidable (radix.IsNumeral zeros n digits) :=
  inferInstanceAs (Decidable (_ = _))

namespace IsNumeral

variable {radix : Radix} {zeros n : Nat} {digits : Bytes}

theorem ne_nil (h : radix.IsNumeral zeros n digits) : digits ≠ [] := by
  rintro rfl
  have hnil := (List.append_eq_nil_iff.mp h.symm).2
  rw [printed, List.map_eq_nil_iff] at hnil
  exact Nat.toDigits_ne_nil hnil

/-- All of them are digits of the base. -/
theorem isDigit (h : radix.IsNumeral zeros n digits) : ∀ b ∈ digits, radix.isDigit b := by
  intro b hb
  have hmem : lower b ∈ List.replicate zeros (ascii '0') ++ radix.printed n :=
    h ▸ List.mem_map_of_mem hb
  rw [Radix.isDigit, ← digit?_lower, ← Radix.isDigit]
  rcases List.mem_append.mp hmem with hzero | hprinted
  · rw [(List.mem_replicate.mp hzero).2]
    cases radix <;> decide
  · exact isDigit_of_mem_printed hprinted

/-- However the number is written, the digits spell it. -/
theorem value_eq (h : radix.IsNumeral zeros n digits) : radix.value digits = n :=
  calc radix.value digits
      = radix.value (digits.map lower) := (value_map_lower radix digits).symm
    _ = radix.value (List.replicate zeros (ascii '0') ++ radix.printed n) := congrArg _ h
    _ = radix.value (radix.printed n) := value_zeros_append radix zeros _
    _ = n := value_printed radix n

end IsNumeral

end Radix

end TerminalConfig
