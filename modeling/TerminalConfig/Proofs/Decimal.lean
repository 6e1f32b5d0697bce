import TerminalConfig.Lexical.Numeral
import TerminalConfig.Proofs.Attempts
import TerminalConfig.Proofs.Digits
import TerminalConfig.Proofs.Printable

/-! # Decimal numerals — a number reads back from its digits

    `Text.decimal n` prints as `decimalBytes n` (`prints_decimal`), which spells
    `n` (`value_decimalBytes`).  Digits are read as what they spell wherever no
    further digit follows (`Reader.run_numeral_append`). -/

namespace TerminalConfig

/-- The decimal digits of a number. -/
def decimalBytes (n : Nat) : Bytes :=
  (Nat.toDigits 10 n).map ascii

/-! ## Digits -/

theorem toNat_of_isDigit {c : Char} (h : c.isDigit) : 0x30 ≤ c.toNat ∧ c.toNat ≤ 0x39 := by
  simp only [Char.isDigit, Bool.and_eq_true, decide_eq_true_eq] at h
  exact ⟨UInt32.le_iff_toNat_le.mp h.1, UInt32.le_iff_toNat_le.mp h.2⟩

/-- The digits of base ten are the ASCII ones. -/
theorem isDigit_decimal (b : UInt8) : Radix.decimal.isDigit b = isDigit b := by
  rw [Bool.eq_iff_iff, isDigit_iff, Radix.isDigit, Radix.digit?, Radix.hexValue?_eq]
  by_cases hdigit : 0x30 ≤ b.toNat ∧ b.toNat ≤ 0x39
  · have hlt : b.toNat - 0x30 < Radix.decimal.base := by
      show b.toNat - 0x30 < 10
      omega
    rw [if_pos hdigit, Radix.filter_base, if_pos hlt]
    exact iff_of_true rfl hdigit
  · -- a letter counts ten or more
    refine iff_of_false ?_ hdigit
    have hten : ∀ {n}, Radix.decimal.base ≤ n →
        ¬ ((some n).filter (· < Radix.decimal.base)).isSome := by
      intro n hn
      rw [Radix.filter_base, if_neg (Nat.not_lt.mpr hn)]
      exact Bool.false_ne_true
    rw [if_neg hdigit]
    split
    · exact hten (show 10 ≤ _ by omega)
    · split
      · exact hten (show 10 ≤ _ by omega)
      · exact Bool.false_ne_true

/-- A run of digits of base ten starts with an ASCII one. -/
theorem head?_of_digits {digits : Bytes} (hne : digits ≠ [])
    (h : ∀ b ∈ digits, Radix.decimal.isDigit b) (r : Bytes) :
    (digits ++ r).head?.any isDigit := by
  obtain ⟨b, digits, rfl⟩ := List.exists_cons_of_ne_nil hne
  rw [List.cons_append, List.head?_cons, Option.any_some, ← isDigit_decimal]
  exact h b List.mem_cons_self

/-- Every digit of a number is a digit of base ten. -/
theorem radixDigit_of_mem_decimalBytes {n : Nat} {b : UInt8} (h : b ∈ decimalBytes n) :
    Radix.decimal.isDigit b :=
  Radix.isDigit_of_mem_printed h

theorem decimalBytes_ne_nil (n : Nat) : decimalBytes n ≠ [] := by
  rw [decimalBytes, ne_eq, List.map_eq_nil_iff]
  exact Nat.toDigits_ne_nil

/-- The digits of a number spell it. -/
theorem value_decimalBytes (n : Nat) : Radix.decimal.value (decimalBytes n) = n :=
  Radix.value_printed .decimal n

/-- A number below the limit has no more than so many digits. -/
theorem length_decimalBytes_le {n k : Nat} (hk : 0 < k) (h : n < decimalLimit k) :
    (decimalBytes n).length ≤ k := by
  rw [decimalBytes, List.length_map]
  exact (Nat.length_toDigits_le_iff (by decide) hk).mpr h

/-- Seven digits are not too many. -/
theorem lt_decimalLimit {n k : Nat} (hk : 7 ≤ k) (h : n < 10000000) : n < decimalLimit k := by
  have hpow : 10000000 ≤ decimalLimit k := Nat.pow_le_pow_right (by decide : 0 < 10) hk
  exact Nat.lt_of_lt_of_le h hpow

/-- A number is printed by its digits. -/
theorem prints_decimal (n : Nat) : Prints (Text.decimal n) (decimalBytes n) := by
  refine Prints.ofChars (List.all_eq_true.mpr fun c hc => ?_)
  have hrange := toNat_of_isDigit (Nat.isDigit_of_mem_toDigits (by decide) (by decide) hc)
  simp only [isPrintableChar, isPrintableAscii, Bool.and_eq_true, decide_eq_true_eq,
    UInt8.le_iff_toNat_le, UInt8.lt_iff_toNat_lt, toNat_ascii (show c.toNat < 0x100 by omega),
    UInt8.toNat_ofNat]
  omega

/-! ## Reading a number back -/

/-- Digits are a number when there are some, and not too many. -/
theorem Radix.number_eq_ok {radix : Radix} {digits : Bytes} {n : Nat} :
    radix.number digits = .ok n ↔
      digits ≠ [] ∧ (radix = .decimal → digits.length ≤ maxDecimalDigits) ∧
        radix.value digits = n := by
  rw [number]
  split
  · next hempty =>
    refine iff_of_false (error_ne_ok _ _) ?_
    rintro ⟨hne, -⟩
    exact hne (List.isEmpty_iff.mp hempty)
  · next hne =>
    rw [List.isEmpty_iff] at hne
    split
    · next hlong =>
      refine iff_of_false (error_ne_ok _ _) ?_
      rintro ⟨-, hshort, -⟩
      exact absurd (hshort hlong.1) (Nat.not_le_of_lt hlong.2)
    · next hshort =>
      rw [not_and, Nat.not_lt] at hshort
      constructor
      · intro h
        exact ⟨hne, hshort, Except.ok.inj h⟩
      · rintro ⟨-, -, rfl⟩
        rfl

namespace Reader

/-- A number is the digits up to the byte that stops them. -/
theorem run_numeral_eq_ok {radix : Radix} {s t : Bytes} {n : Nat} :
    (numeral radix).run s = .ok (n, t) ↔
      radix.number (s.takeWhile radix.isDigit) = .ok n ∧ t = s.dropWhile radix.isDigit := by
  rw [run_numeral]
  cases radix.number (s.takeWhile radix.isDigit) <;> simp [eq_comm]

/-- Digits are read as their value, if no further one follows. -/
theorem run_numeral_append {radix : Radix} {digits r : Bytes} (hne : digits ≠ [])
    (hdigits : ∀ b ∈ digits, radix.isDigit b)
    (hshort : radix = .decimal → digits.length ≤ maxDecimalDigits)
    (hstop : ∀ b ∈ r.head?, ¬ radix.isDigit b) :
    (numeral radix).run (digits ++ r) = .ok (radix.value digits, r) := by
  obtain ⟨htake, hdrop⟩ := takeWhile_append_of_stop hdigits hstop
  refine run_numeral_eq_ok.mpr ⟨?_, hdrop.symm⟩
  rw [htake]
  exact Radix.number_eq_ok.mpr ⟨hne, hshort, rfl⟩

end Reader

end TerminalConfig
