import TerminalConfig.Proofs.Gap

/-! # Byte classes — how the classes of bytes lie to each other

    Blanks, digits, letters and printable bytes, told apart once. -/

namespace TerminalConfig

/-- A byte from the space up to the tilde. -/
def isPrintableAscii (b : UInt8) : Bool :=
  0x20 ≤ b && b < 0x7F

/-- A byte of a class is none outside of it. -/
theorem not_beq_of_class {p : UInt8 → Bool} {b c : UInt8} (hb : p b) (hc : ¬ p c) :
    ¬ (b == c) = true := by
  intro he
  exact hc (beq_iff_eq.mp he ▸ hb)

/-- Where a byte of a class stands ahead, there is a first byte. -/
theorem exists_cons_of_head? {s : Bytes} {p : UInt8 → Bool} (h : s.head?.any p) :
    ∃ b r, s = b :: r ∧ p b := by
  cases s with
  | nil => cases h
  | cons b r => exact ⟨b, r, rfl, h⟩

theorem isDigit_iff {b : UInt8} : isDigit b ↔ 0x30 ≤ b.toNat ∧ b.toNat ≤ 0x39 := by
  simp only [isDigit, Bool.and_eq_true, decide_eq_true_eq, UInt8.le_iff_toNat_le,
    UInt8.toNat_ofNat]

theorem toNat_of_isPrintableAscii {b : UInt8} (h : isPrintableAscii b) :
    0x20 ≤ b.toNat ∧ b.toNat < 0x7F := by
  simp only [isPrintableAscii, Bool.and_eq_true, decide_eq_true_eq, UInt8.le_iff_toNat_le,
    UInt8.lt_iff_toNat_lt, UInt8.toNat_ofNat] at h
  omega

/-- No digit starts an identifier. -/
theorem not_isDigit_of_startsIdentifier {b : UInt8} (h : startsIdentifier b) : ¬ isDigit b := by
  simp only [startsIdentifier, isLetter, underscore, Bool.or_eq_true, Bool.and_eq_true,
    decide_eq_true_eq, beq_iff_eq, UInt8.le_iff_toNat_le, ← UInt8.toNat_inj, UInt8.toNat_ofNat]
    at h
  simp only [isDigit, Bool.and_eq_true, decide_eq_true_eq, UInt8.le_iff_toNat_le,
    UInt8.toNat_ofNat]
  omega

/-- What is a digit goes on with an identifier. -/
theorem continuesIdentifier_of_isDigit {b : UInt8} (h : isDigit b) : continuesIdentifier b := by
  simp only [continuesIdentifier, h, Bool.or_true, Bool.true_or]

/-- A digit of any base goes on with an identifier. -/
theorem continuesIdentifier_of_radixDigit {radix : Radix} {b : UInt8} (h : radix.isDigit b) :
    continuesIdentifier b := by
  obtain ⟨n, hn⟩ := Option.isSome_iff_exists.mp h
  have hhex := (Option.filter_eq_some_iff.mp hn).1
  have hletter : isLetter b → continuesIdentifier b := by
    intro hb
    simp only [continuesIdentifier, hb, Bool.true_or]
  rw [Radix.hexValue?] at hhex
  split at hhex
  · next hdigit => exact continuesIdentifier_of_isDigit hdigit
  · split at hhex
    · next hupper =>
      refine hletter ?_
      simp only [isLetter, Bool.or_eq_true, Bool.and_eq_true, decide_eq_true_eq,
        UInt8.le_iff_toNat_le, UInt8.toNat_ofNat] at hupper ⊢
      omega
    · split at hhex
      · next hlower =>
        refine hletter ?_
        simp only [isLetter, Bool.or_eq_true, Bool.and_eq_true, decide_eq_true_eq,
          UInt8.le_iff_toNat_le, UInt8.toNat_ofNat] at hlower ⊢
        omega
      · cases hhex

/-- No blank goes on with an identifier. -/
theorem not_continuesIdentifier_of_isBlank {b : UInt8} (h : isBlank b) :
    ¬ continuesIdentifier b := by
  simp only [isBlank, Bool.or_eq_true, Bool.and_eq_true, decide_eq_true_eq, beq_iff_eq,
    UInt8.le_iff_toNat_le, ← UInt8.toNat_inj, UInt8.toNat_ofNat] at h
  simp only [continuesIdentifier, isLetter, isDigit, isOtherNumber, underscore, apostrophe,
    Bool.or_eq_true, Bool.and_eq_true, decide_eq_true_eq, beq_iff_eq, bne_iff_ne, ne_eq,
    UInt8.le_iff_toNat_le, ← UInt8.toNat_inj, UInt8.toNat_ofNat]
  omega

/-- Where an identifier goes on, no gap starts. -/
theorem settled_of_continuesIdentifier {a : UInt8} (h : continuesIdentifier a) (r : Bytes) :
    Settled (a :: r) := by
  refine settled_of_byte (fun hb => not_continuesIdentifier_of_isBlank hb h) ?_ ?_ r
  · rintro rfl
    exact absurd h (by decide)
  · rintro rfl
    exact absurd h (by decide)

end TerminalConfig
