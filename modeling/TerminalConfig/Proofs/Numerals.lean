import TerminalConfig.Proofs.Escapes

/-! # Numerals — one meaning in the two places that read them

    A number stands by itself, where `0x` or `0o` in front of its digits gives the
    base, or in an escape, where the letter behind the backslash gives it.  Both
    places read the same digits as the same number:

    * by itself, a number is read from the digits behind its mark
      (`Reader.run_natural_mark`), and only a lone `0` can be taken for the start
      of one (`Radix.ofMark_of_digits`);
    * an escape is read from the same digits, and is the character with this number
      or fails at its backslash (`Reader.run_escape_digits`);
    * decimal digits that are too many fail at the first of them, whatever follows
      (`Reader.run_numeral_long`).

    `Reader.numerals_read_alike` says this of every way to write a number. -/

namespace TerminalConfig

namespace Radix

/-! ## Marks -/

/-- What stands in front of the digits of a number by itself. -/
def marks : Radix → List Bytes
  | decimal => [[]]
  | octal => [asciiBytes "0o", asciiBytes "0O"]
  | hexadecimal => [asciiBytes "0x", asciiBytes "0X"]

/-- The letters that make a mark of a `0` in front of them. -/
def markLetters : Bytes :=
  [ascii 'x', ascii 'X', ascii 'o', ascii 'O']

/-- Such a letter goes on with a word. -/
theorem continuesIdentifier_of_markLetter {b : UInt8} (h : b ∈ markLetters) :
    continuesIdentifier b := by
  have hall : markLetters.all continuesIdentifier := by decide
  exact List.all_eq_true.mp hall b h

/-- A number by itself ends in front of these bytes: no digit goes on with it, and
    no letter makes a mark of a lone `0`. -/
structure EndsNumber (radix : Radix) (digits r : Bytes) : Prop where
  digit : ∀ b ∈ r.head?, ¬ radix.isDigit b
  mark : radix = .decimal → digits = [ascii '0'] → ∀ b ∈ r.head?, b ∉ markLetters

/-- There is no mark without its letter. -/
theorem ofMark_eq_decimal {a b : UInt8} (h : a = ascii '0' → b ∉ markLetters) (s : Bytes) :
    ofMark (a :: b :: s) = .decimal := by
  rw [ofMark]
  by_cases ha : a = ascii '0'
  · have hb := h ha
    simp only [markLetters, List.mem_cons, List.not_mem_nil, or_false, not_or] at hb
    obtain ⟨hx, hX, ho, hO⟩ := hb
    simp [ha, hx, hX, ho, hO]
  · rw [if_pos (bne_iff_ne.mpr ha)]

/-- Decimal digits have no mark in front of them: a mark is two bytes long, so that a
    lone `0` may be its start, but two digits are none. -/
theorem ofMark_of_digits {digits : Bytes} (hne : digits ≠ [])
    (hdigits : ∀ b ∈ digits, Radix.decimal.isDigit b) {r : Bytes}
    (hr : digits = [ascii '0'] → ∀ b ∈ r.head?, b ∉ markLetters) :
    ofMark (digits ++ r) = .decimal := by
  match digits with
  | [] => exact absurd rfl hne
  | [a] =>
      cases r with
      | nil => rfl
      | cons b r => exact ofMark_eq_decimal (fun ha => hr (by rw [ha]) b rfl) r
  | a :: b :: digits =>
      have hletters : markLetters.all fun c => !Radix.decimal.isDigit c := by decide
      have hb : Radix.decimal.isDigit b := hdigits b (by simp)
      refine ofMark_eq_decimal (fun _ hmem => ?_) _
      have hnot := List.all_eq_true.mp hletters b hmem
      rw [hb] at hnot
      cases hnot

end Radix

namespace Reader

/-- The mark of a base is read as the base, and nothing is read where no mark stands. -/
theorem run_radixMark_mark {radix : Radix} {mark : Bytes} (hmark : mark ∈ radix.marks) {s : Bytes}
    (hs : radix = .decimal → Radix.ofMark s = .decimal) :
    radixMark.run (mark ++ s) = .ok (radix, s) := by
  cases radix with
  | decimal =>
      rw [List.mem_singleton.mp hmark, List.nil_append, radixMark, run_bind_of_ok (run_remaining s),
        hs rfl]
      rfl
  | octal =>
      rcases List.mem_pair.mp hmark with rfl | rfl <;> rfl
  | hexadecimal =>
      rcases List.mem_pair.mp hmark with rfl | rfl <;> rfl

/-- A number by itself is read from the digits behind its mark. -/
theorem run_natural_mark {radix : Radix} {mark : Bytes} (hmark : mark ∈ radix.marks) {s : Bytes}
    (hs : radix = .decimal → s.head?.any isDigit ∧ Radix.ofMark s = .decimal) :
    natural.run (mark ++ s) = (lexeme (numeral radix)).run s := by
  have hhead : (mark ++ s).head?.any isDigit := by
    cases radix with
    | decimal =>
        rw [List.mem_singleton.mp hmark]
        exact (hs rfl).1
    | octal => rcases List.mem_pair.mp hmark with rfl | rfl <;> rfl
    | hexadecimal => rcases List.mem_pair.mp hmark with rfl | rfl <;> rfl
  have hradix := run_radixMark_mark hmark fun h => (hs h).2
  rw [natural, run_bind_of_ok (run_ahead _), if_pos hhead, lexeme, run_bind, run_bind, hradix]
  rfl

/-- A number by itself is read as its digits spell it, up to what the gap behind it
    leaves. -/
theorem run_natural_digits {radix : Radix} {mark digits r t : Bytes} (hmark : mark ∈ radix.marks)
    (hne : digits ≠ []) (hdigits : ∀ b ∈ digits, radix.isDigit b)
    (hshort : radix = .decimal → digits.length ≤ maxDecimalDigits)
    (hr : radix.EndsNumber digits r) (hgap : skipGap r = .ok t) :
    natural.run (mark ++ (digits ++ r)) = .ok (radix.value digits, t) := by
  have hdecimal : radix = .decimal →
      (digits ++ r).head?.any isDigit ∧ Radix.ofMark (digits ++ r) = .decimal := by
    rintro rfl
    exact ⟨head?_of_digits hne hdigits r, Radix.ofMark_of_digits hne hdigits (hr.mark rfl)⟩
  rw [run_natural_mark hmark hdecimal]
  exact run_lexeme_eq_ok.mpr ⟨r, run_numeral_append hne hdigits hshort hr.digit, hgap⟩

/-! ## Escapes -/

/-- An escape is what stands behind its backslash, and a fault without a place of its
    own lies at the backslash. -/
theorem run_escape (s : Bytes) :
    escape.run (backslash :: s) =
      match escapeBody.run s with
      | .ok (.ok c, t) => .ok (c, t)
      | .ok (.error fault, t) => .error ⟨fault, backslash :: s, t⟩
      | .error e => .error e := by
  simp only [escape, fromStart]
  rw [run_bind_of_ok (run_skipByte_cons backslash s)]
  rcases escapeBody.run s with e | ⟨fault | c, t⟩ <;> rfl

/-- The number of a character is an escape of it. -/
theorem numericEscape_of_isValidChar {n : Nat} (h : n.isValidChar) :
    ∃ c : CodePoint, c.val = n ∧ numericEscape n = .ok c := by
  have hlt : n < 0x110000 := by omega
  refine ⟨⟨n, hlt⟩, rfl, numericEscape_eq_ok.mpr ⟨rfl, ?_⟩⟩
  simp only [CodePoint.isSurrogate, Bool.and_eq_true, decide_eq_true_eq]
  omega

/-- No other number is. -/
theorem numericEscape_of_not_isValidChar {n : Nat} (h : ¬ n.isValidChar) :
    numericEscape n = .error .escapeOutOfRange := by
  rw [numericEscape, CodePoint.ofNat?]
  by_cases hlt : n < 0x110000
  · rw [dif_pos hlt]
    have hsurrogate : (⟨n, hlt⟩ : CodePoint).isSurrogate := by
      simp only [CodePoint.isSurrogate, Bool.and_eq_true, decide_eq_true_eq]
      omega
    exact if_pos hsurrogate
  · rw [dif_neg hlt]

/-- Digits in an escape are read as the same number, and stand for the character with
    this number, if there is one. -/
theorem run_escape_digits {radix : Radix} {digits r : Bytes}
    (hne : digits ≠ []) (hdigits : ∀ b ∈ digits, radix.isDigit b)
    (hshort : radix = .decimal → digits.length ≤ maxDecimalDigits)
    (hr : ∀ b ∈ r.head?, ¬ radix.isDigit b) :
    escape.run (backslash :: (radix.letter ++ (digits ++ r))) =
      match numericEscape (radix.value digits) with
      | .ok c => .ok (c, r)
      | .error fault => .error ⟨fault, backslash :: (radix.letter ++ (digits ++ r)), r⟩ := by
  have hdecimal : radix = .decimal → (digits ++ r).head?.any isDigit := by
    rintro rfl
    exact head?_of_digits hne hdigits r
  have hnumeral := run_numeral_append hne hdigits hshort hr
  rw [run_escape, run_escapeBody_number hdecimal, run_bind_of_ok hnumeral, run_pure]
  cases numericEscape (radix.value digits) <;> rfl

/-! ## Numerals that are too long -/

/-- Decimal digits that are too many fail at the first of them. -/
theorem run_numeral_long {digits : Bytes} (hdigits : ∀ b ∈ digits, Radix.decimal.isDigit b)
    (hlong : maxDecimalDigits < digits.length) (r : Bytes) :
    ∃ stop, (numeral .decimal).run (digits ++ r) = .error ⟨.longNumeral, digits ++ r, stop⟩ := by
  have hall : maxDecimalDigits < ((digits ++ r).takeWhile Radix.decimal.isDigit).length := by
    rw [List.takeWhile_append_of_pos hdigits, List.length_append]
    omega
  have hnumber : Radix.decimal.number ((digits ++ r).takeWhile Radix.decimal.isDigit)
      = .error .longNumeral := by
    have hne : ¬ ((digits ++ r).takeWhile Radix.decimal.isDigit).isEmpty := by
      rw [List.isEmpty_iff_length_eq_zero]
      omega
    rw [Radix.number, if_neg hne, if_pos ⟨rfl, hall⟩]
  rw [run_numeral, hnumber]
  exact ⟨_, rfl⟩

/-- The reader fails with a lexical fault, which lies where `site` remains. -/
def FailsAt {α : Type} (r : Reader α) (s : Bytes) (fault : Fault) (site : Bytes) : Prop :=
  fault.kind = .lexical ∧ ∃ stop, r.run s = .error ⟨fault, site, stop⟩

/-- A number by itself that is too long fails at its first digit. -/
theorem failsAt_natural_long {digits : Bytes} (hdigits : ∀ b ∈ digits, Radix.decimal.isDigit b)
    (hlong : maxDecimalDigits < digits.length) (r : Bytes) :
    natural.FailsAt (digits ++ r) .longNumeral (digits ++ r) := by
  have hne : digits ≠ [] := List.ne_nil_of_length_pos (Nat.zero_lt_of_lt hlong)
  have hmark : Radix.ofMark (digits ++ r) = .decimal := by
    refine Radix.ofMark_of_digits hne hdigits ?_
    -- a lone digit is not too long
    rintro rfl
    exact absurd hlong (by decide)
  obtain ⟨stop, hnumeral⟩ := run_numeral_long hdigits hlong r
  have hrun : natural.run ([] ++ (digits ++ r)) = (lexeme (numeral .decimal)).run (digits ++ r) :=
    run_natural_mark (List.mem_singleton.mpr rfl) fun _ => ⟨head?_of_digits hne hdigits r, hmark⟩
  refine ⟨rfl, stop, ?_⟩
  rw [← List.nil_append (digits ++ r), hrun, lexeme, run_bind_of_error hnumeral, List.nil_append]

/-- A number in an escape that is too long fails at its first digit, too, and not at
    the backslash. -/
theorem failsAt_escape_long {digits : Bytes} (hdigits : ∀ b ∈ digits, Radix.decimal.isDigit b)
    (hlong : maxDecimalDigits < digits.length) (r : Bytes) :
    escape.FailsAt (backslash :: (digits ++ r)) .longNumeral (digits ++ r) := by
  have hne : digits ≠ [] := List.ne_nil_of_length_pos (Nat.zero_lt_of_lt hlong)
  obtain ⟨stop, hnumeral⟩ := run_numeral_long hdigits hlong r
  have hbody : escapeBody.run (Radix.decimal.letter ++ (digits ++ r)) = _ :=
    run_escapeBody_number fun _ => head?_of_digits hne hdigits r
  refine ⟨rfl, stop, ?_⟩
  rw [Radix.letter, List.nil_append] at hbody
  rw [run_escape, hbody, run_bind_of_error hnumeral]

/-! ## One meaning -/

/-- Both places that read numerals give them one meaning.  However a number is written in
    a base, with zeros in front and letters in either case, it is read by itself as this
    number, wherever it ends and the gap behind it closes; and in an escape as the
    character with this number, or, when there is none, as a fault at the backslash.
    Only decimal digits are limited in number, and too many fail at the first of them. -/
theorem numerals_read_alike :
    (∀ {radix : Radix} {zeros n : Nat} {digits : Bytes}, radix.IsNumeral zeros n digits →
      (radix = .decimal → digits.length ≤ maxDecimalDigits) →
      (∀ {mark r t : Bytes}, mark ∈ radix.marks → radix.EndsNumber digits r → skipGap r = .ok t →
        natural.run (mark ++ (digits ++ r)) = .ok (n, t)) ∧
      ∀ {r : Bytes}, (∀ b ∈ r.head?, ¬ radix.isDigit b) →
        (n.isValidChar → ∃ c : CodePoint, c.val = n ∧
          escape.run (backslash :: (radix.letter ++ (digits ++ r))) = .ok (c, r)) ∧
        (¬ n.isValidChar →
          escape.FailsAt (backslash :: (radix.letter ++ (digits ++ r))) .escapeOutOfRange
            (backslash :: (radix.letter ++ (digits ++ r))))) ∧
    ∀ {digits : Bytes}, (∀ b ∈ digits, Radix.decimal.isDigit b) →
      maxDecimalDigits < digits.length → ∀ r : Bytes,
        natural.FailsAt (digits ++ r) .longNumeral (digits ++ r) ∧
        escape.FailsAt (backslash :: (digits ++ r)) .longNumeral (digits ++ r) := by
  refine ⟨?_, fun hdigits hlong r =>
    ⟨failsAt_natural_long hdigits hlong r, failsAt_escape_long hdigits hlong r⟩⟩
  intro radix zeros n digits h hshort
  constructor
  · intro mark r t hmark hr hgap
    rw [run_natural_digits hmark h.ne_nil h.isDigit hshort hr hgap, h.value_eq]
  · intro r hr
    have hescape := run_escape_digits h.ne_nil h.isDigit hshort hr
    rw [h.value_eq] at hescape
    constructor
    · intro hvalid
      obtain ⟨c, hc, hnumeric⟩ := numericEscape_of_isValidChar hvalid
      rw [hnumeric] at hescape
      exact ⟨c, hc, hescape⟩
    · intro hinvalid
      rw [numericEscape_of_not_isValidChar hinvalid] at hescape
      exact ⟨rfl, r, hescape⟩

/-- Seven, with as many zeros in front as there is room for. -/
def longestSeven : Bytes :=
  List.replicate 4299 (ascii '0') ++ [ascii '7']

/-- Numbers at the margins: zeros that no mark can be made of, the last number in front of
    the surrogates in both places, the first surrogate, a decimal number with all the
    digits that there is room for, and one with a digit more. -/
theorem marginalNumerals_read_alike :
    natural.run ([] ++ (asciiBytes "00" ++ asciiBytes "x1")) = .ok (0, asciiBytes "x1") ∧
    natural.run (asciiBytes "0X" ++ (asciiBytes "00d7Ff" ++ asciiBytes " --"))
      = .ok (0xD7FF, []) ∧
    (∃ c : CodePoint, c.val = 0xD7FF ∧
      escape.run (backslash :: ([ascii 'x'] ++ (asciiBytes "00d7Ff" ++ asciiBytes "g")))
        = .ok (c, asciiBytes "g")) ∧
    escape.FailsAt (backslash :: ([ascii 'o'] ++ (asciiBytes "154000" ++ asciiBytes "8")))
      .escapeOutOfRange (backslash :: ([ascii 'o'] ++ (asciiBytes "154000" ++ asciiBytes "8"))) ∧
    natural.run ([] ++ (longestSeven ++ asciiBytes "]")) = .ok (7, asciiBytes "]") ∧
    natural.FailsAt (ascii '0' :: longestSeven ++ asciiBytes "x") .longNumeral
      (ascii '0' :: longestSeven ++ asciiBytes "x") := by
  have hzeros : Radix.decimal.IsNumeral 1 0 (asciiBytes "00") := by decide
  have hlast : Radix.hexadecimal.IsNumeral 2 0xD7FF (asciiBytes "00d7Ff") := by decide +kernel
  have hsurrogate : Radix.octal.IsNumeral 0 0xD800 (asciiBytes "154000") := by decide +kernel
  have hlongest : Radix.decimal.IsNumeral 4299 7 longestSeven := by
    rw [Radix.IsNumeral, longestSeven, List.map_append, List.map_replicate]
    rfl
  have hlength : longestSeven.length = maxDecimalDigits := by
    rw [longestSeven, List.length_append, List.length_replicate]
    rfl
  -- that it is long enough, and what it is, is all that matters of it
  generalize longestSeven = seven at hlongest hlength ⊢
  obtain ⟨hread, hlong⟩ := numerals_read_alike
  refine ⟨?_, ?_, ?_, ?_, ?_, ?_⟩
  · have hends : Radix.decimal.EndsNumber (asciiBytes "00") (asciiBytes "x1") :=
      ⟨by decide +kernel, fun _ h => absurd h (by decide)⟩
    have hgap : skipGap (asciiBytes "x1") = .ok (asciiBytes "x1") := by decide +kernel
    exact (hread hzeros (by decide)).1 (List.mem_singleton.mpr rfl) hends hgap
  · have hends : Radix.hexadecimal.EndsNumber (asciiBytes "00d7Ff") (asciiBytes " --") :=
      ⟨by decide +kernel, nofun⟩
    have hgap : skipGap (asciiBytes " --") = .ok [] := by decide +kernel
    exact (hread hlast nofun).1 (List.mem_pair.mpr (Or.inr rfl)) hends hgap
  · have hends : ∀ b ∈ (asciiBytes "g").head?, ¬ Radix.hexadecimal.isDigit b := by decide +kernel
    exact ((hread hlast nofun).2 hends).1 (by decide)
  · have hends : ∀ b ∈ (asciiBytes "8").head?, ¬ Radix.octal.isDigit b := by decide +kernel
    exact ((hread hsurrogate nofun).2 hends).2 (by decide)
  · have hends : Radix.decimal.EndsNumber seven (asciiBytes "]") :=
      ⟨by decide +kernel, fun _ _ => by decide +kernel⟩
    have hgap : skipGap (asciiBytes "]") = .ok (asciiBytes "]") := by decide +kernel
    exact (hread hlongest fun _ => hlength.le).1 (List.mem_singleton.mpr rfl) hends hgap
  · have hdigits : ∀ b ∈ ascii '0' :: seven, Radix.decimal.isDigit b :=
      List.forall_mem_cons.mpr ⟨by decide, hlongest.isDigit⟩
    have hmany : maxDecimalDigits < (ascii '0' :: seven).length := by
      rw [List.length_cons, hlength]
      exact Nat.lt_succ_self _
    exact (hlong hdigits hmany _).1

end Reader

end TerminalConfig
