import TerminalConfig.Proofs.Decimal
import TerminalConfig.Proofs.Lookahead
import Mathlib.Tactic.IntervalCases

/-! # Escapes — which spellings stand for which code points

    What stands behind a backslash is one of four things: a letter or quote with a
    meaning of its own, a number in one of three bases, a caret with a character,
    or the name of a control character.  `Escape.Means` says what each of them
    stands for, and `Escape.EndsAt` where it ends: a number takes all digits of its
    base, and a name is the longest of the table that fits.  The reader of escapes
    reads these spellings and no others (`Reader.run_escape_iff`).

    The spellings do not get into each other's way: they are told apart by their
    first byte, since no name starts with a letter that another kind starts with
    (`name_starts`). -/

namespace TerminalConfig

/-! ## Names -/

/-- A name of the table stands where its bytes do. -/
theorem dropText?_name {name : String} {code : UInt8} (h : (name, code) ∈ escapeNames)
    {s t : Bytes} : dropText? name.toList s = some t ↔ s = asciiBytes name ++ t := by
  have hascii : ∀ p ∈ escapeNames,
      p.1.toList.map Char.toNat = (asciiBytes p.1).map UInt8.toNat := by decide +kernel
  rw [dropText?_eq_some, hascii _ h]
  constructor
  · rintro ⟨w, rfl, hw⟩
    rw [List.map_injective_iff.mpr (fun _ _ h => UInt8.toNat_inj.mp h) hw]
  · intro hs
    exact ⟨_, hs, rfl⟩

/-- Different names of the table have different bytes. -/
theorem name_unique {p q : String × UInt8} (hp : p ∈ escapeNames) (hq : q ∈ escapeNames)
    (h : asciiBytes p.1 = asciiBytes q.1) : p = q := by
  have hall : ∀ p ∈ escapeNames, ∀ q ∈ escapeNames, asciiBytes p.1 = asciiBytes q.1 → p = q := by
    decide +kernel
  exact hall p hp q hq h

theorem length_asciiBytes (name : String) : (asciiBytes name).length = name.length := by
  rw [asciiBytes, List.length_map, String.length_toList]

/-- No name of the table that the bytes start with is longer. -/
def LongestName (name : String) (s : Bytes) : Prop :=
  ∀ p ∈ escapeNames, asciiBytes p.1 <+: s → p.1.length ≤ name.length

/-- The longer names of the table are tried first. -/
theorem pairwise_escapeNamesByLength :
    escapeNamesByLength.Pairwise fun p q => q.1.length ≤ p.1.length := by
  decide +kernel

theorem mem_escapeNamesByLength {p : String × UInt8} :
    p ∈ escapeNamesByLength ↔ p ∈ escapeNames := by
  have hto : ∀ p ∈ escapeNames, p ∈ escapeNamesByLength := by decide +kernel
  have hfrom : ∀ p ∈ escapeNamesByLength, p ∈ escapeNames := by decide +kernel
  exact ⟨hfrom p, hto p⟩

/-- The name that is found stands there, and no longer one does. -/
theorem exists_of_namedEscape? {s : Bytes} {code : UInt8} {length : Nat}
    (h : namedEscape? s = some (code, length)) :
    ∃ name t, (name, code) ∈ escapeNames ∧ s = asciiBytes name ++ t ∧ length = name.length ∧
      LongestName name s := by
  obtain ⟨longer, p, shorter, hsplit, hfound, hlonger⟩ := List.findSome?_eq_some_iff.mp h
  obtain ⟨t, ht, hpair⟩ := Option.map_eq_some_iff.mp hfound
  obtain ⟨name, code'⟩ := p
  obtain ⟨rfl, rfl⟩ := Prod.mk.inj hpair
  have hmem : (name, code') ∈ escapeNames := by
    rw [← mem_escapeNamesByLength, hsplit]
    simp
  refine ⟨name, t, hmem, (dropText?_name hmem).mp ht, rfl, ?_⟩
  rintro q hq ⟨u, hu⟩
  have hdrop : dropText? q.1.toList s = some u := (dropText?_name hq).mpr hu.symm
  rw [← mem_escapeNamesByLength, hsplit, List.mem_append, List.mem_cons] at hq
  rcases hq with hq | rfl | hq
  · -- the names in front do not fit
    have hnone : (dropText? q.1.toList s).map (fun _ => (q.2, q.1.length)) = none := hlonger q hq
    rw [hdrop] at hnone
    cases hnone
  · exact Nat.le_refl _
  · have hpairwise := pairwise_escapeNamesByLength
    rw [hsplit, List.pairwise_append] at hpairwise
    exact (List.pairwise_cons.mp hpairwise.2.1).1 q hq

/-- The longest name that fits is found. -/
theorem namedEscape?_of_longest {name : String} {code : UInt8} {t : Bytes}
    (hmem : (name, code) ∈ escapeNames) (hlongest : LongestName name (asciiBytes name ++ t)) :
    namedEscape? (asciiBytes name ++ t) = some (code, name.length) := by
  cases hfound : namedEscape? (asciiBytes name ++ t) with
  | none =>
      have hnone := List.findSome?_eq_none_iff.mp hfound _ (mem_escapeNamesByLength.mpr hmem)
      rw [Option.map_eq_none_iff, (dropText?_name hmem).mpr rfl] at hnone
      cases hnone
  | some found =>
      obtain ⟨code', length⟩ := found
      obtain ⟨name', t', hmem', hs, rfl, hlongest'⟩ := exists_of_namedEscape? hfound
      -- each of the two names is at least as long as the other one
      have hle : name'.length ≤ name.length := hlongest _ hmem' ⟨t', hs.symm⟩
      have hge : name.length ≤ name'.length := hlongest' _ hmem ⟨t, rfl⟩
      have hlength : (asciiBytes name).length = (asciiBytes name').length := by
        rw [length_asciiBytes, length_asciiBytes]
        omega
      cases name_unique hmem hmem' (List.append_inj_left hs hlength)
      rfl

/-- A name starts with a byte that nothing else behind a backslash starts with. -/
theorem name_starts {name : String} {code : UInt8} (h : (name, code) ∈ escapeNames) :
    ∃ b r, asciiBytes name = b :: r ∧ simpleEscape? b = none ∧ ¬ isDigit b ∧
      (b ≠ ascii 'o' ∧ b ≠ ascii 'x' ∧ b ≠ caret) ∧ b ≠ ampersand ∧ ¬ isBlank b := by
  have hall : ∀ p ∈ escapeNames, (asciiBytes p.1).head?.any fun b =>
      (simpleEscape? b).isNone && !isDigit b && (b != ascii 'o' && b != ascii 'x' && b != caret)
        && b != ampersand && !isBlank b := by
    decide +kernel
  obtain ⟨b, r, hname, hb⟩ := exists_cons_of_head? (hall _ h)
  simp only [Bool.and_eq_true, Option.isNone_iff_eq_none, Bool.not_eq_true', bne_iff_ne] at hb
  obtain ⟨⟨⟨⟨hsimple, hdigit⟩, ⟨ho, hx⟩, hcaret⟩, hampersand⟩, hblank⟩ := hb
  exact ⟨b, r, hname, hsimple, by simp [hdigit], ⟨ho, hx, hcaret⟩, hampersand, by simp [hblank]⟩

/-- No digit is a simple escape. -/
theorem simpleEscape?_of_isDigit {b : UInt8} (h : isDigit b) : simpleEscape? b = none := by
  obtain ⟨hlow, hhigh⟩ := isDigit_iff.mp h
  rw [← UInt8.ofNat_toNat (x := b)]
  generalize b.toNat = n at hlow hhigh
  interval_cases n <;> rfl

/-- No blank is a simple escape. -/
theorem simpleEscape?_of_isBlank {b : UInt8} (h : isBlank b) : simpleEscape? b = none := by
  have hrange : b = 0x20 ∨ b = 0xA0 ∨ (0x09 ≤ b.toNat ∧ b.toNat ≤ 0x0D) := by
    simp only [isBlank, Bool.or_eq_true, Bool.and_eq_true, beq_iff_eq, decide_eq_true_eq,
      UInt8.le_iff_toNat_le] at h
    tauto
  rcases hrange with rfl | rfl | ⟨hlow, hhigh⟩
  · rfl
  · rfl
  · rw [← UInt8.ofNat_toNat (x := b)]
    generalize b.toNat = n at hlow hhigh
    interval_cases n <;> rfl

/-! ## Spellings -/

/-- The letter that the digits of an escape in this base stand behind. -/
def Radix.letter : Radix → Bytes
  | .decimal => []
  | .octal => [ascii 'o']
  | .hexadecimal => [ascii 'x']

/-- What may stand behind a backslash for a code point. -/
inductive Escape
  | simple (b : UInt8)
  | number (radix : Radix) (digits : Bytes)
  | control (b : UInt8)
  | named (name : String)

namespace Escape

/-- The bytes behind the backslash. -/
def bytes : Escape → Bytes
  | simple b => [b]
  | number radix digits => radix.letter ++ digits
  | control b => [caret, b]
  | named name => asciiBytes name

/-- What the escape stands for. -/
inductive Means : Escape → CodePoint → Prop
  | simple {b : UInt8} {c : CodePoint} : simpleEscape? b = some c → Means (.simple b) c
  | number {radix : Radix} {digits : Bytes} {c : CodePoint} : digits ≠ [] →
      (∀ b ∈ digits, radix.isDigit b) →
      (radix = .decimal → digits.length ≤ maxDecimalDigits) →
      radix.value digits = c.val → ¬ c.isSurrogate → Means (.number radix digits) c
  | control {b : UInt8} : 0x40 ≤ b → b ≤ 0x5F → Means (.control b) (.ofByte (b - 0x40))
  | named {name : String} {code : UInt8} : (name, code) ∈ escapeNames →
      Means (.named name) (.ofByte code)

/-- In front of these bytes the escape ends, and does not go on with them. -/
def EndsAt : Escape → Bytes → Prop
  | number radix _, r => ∀ b ∈ r.head?, ¬ radix.isDigit b
  | named name, r => LongestName name (asciiBytes name ++ r)
  | _, _ => True

/-- Every code point but the surrogates has a spelling: its decimal number. -/
theorem means_decimal {c : CodePoint} (h : ¬ c.isSurrogate) :
    (number .decimal (decimalBytes c.val)).Means c := by
  have hlimit : c.val < decimalLimit maxDecimalDigits :=
    lt_decimalLimit (by decide) (Nat.lt_trans c.val_lt (by decide))
  exact .number (decimalBytes_ne_nil _) (fun _ => radixDigit_of_mem_decimalBytes)
    (fun _ => length_decimalBytes_le (by decide) hlimit) (value_decimalBytes _) h

/-- What starts an escape is neither the empty escape nor a gap. -/
theorem Means.starts {e : Escape} {c : CodePoint} (h : e.Means c) :
    ∃ b r, e.bytes = b :: r ∧ b ≠ ampersand ∧ ¬ isBlank b := by
  cases h with
  | @simple b _ hsimple =>
      refine ⟨b, [], rfl, ?_, ?_⟩
      · rintro rfl
        cases hsimple
      · intro hblank
        rw [simpleEscape?_of_isBlank hblank] at hsimple
        cases hsimple
  | @number radix digits _ hne hdigits _ _ _ =>
      have hletter : ∀ b ∈ radix.letter ++ digits, continuesIdentifier b := by
        intro b hb
        rcases List.mem_append.mp hb with hb | hb
        · cases radix with
          | decimal => exact absurd hb List.not_mem_nil
          | octal => exact List.mem_singleton.mp hb ▸ by decide
          | hexadecimal => exact List.mem_singleton.mp hb ▸ by decide
        · exact continuesIdentifier_of_radixDigit (hdigits b hb)
      obtain ⟨b, r, hbytes⟩ := List.exists_cons_of_ne_nil
        (show radix.letter ++ digits ≠ [] from List.append_ne_nil_of_right_ne_nil _ hne)
      have hb := hletter b (hbytes ▸ List.mem_cons_self)
      refine ⟨b, r, hbytes, ?_, fun hblank => not_continuesIdentifier_of_isBlank hblank hb⟩
      rintro rfl
      exact absurd hb (by decide)
  | control _ _ => exact ⟨caret, _, rfl, by decide, by decide⟩
  | named hmem =>
      obtain ⟨b, r, hname, -, -, -, hampersand, hblank⟩ := name_starts hmem
      exact ⟨b, r, hname, hampersand, hblank⟩

/-- Every escape ends in front of a backslash: it is no digit, and no name holds
    one. -/
theorem endsAt_backslash (e : Escape) (r : Bytes) : e.EndsAt (backslash :: r) := by
  cases e with
  | simple b => trivial
  | control b => trivial
  | number radix digits =>
      intro b hb
      rw [← Option.some.inj hb]
      cases radix <;> decide
  | named name =>
      have hnone : ∀ p ∈ escapeNames, backslash ∉ asciiBytes p.1 := by decide +kernel
      rintro p hp ⟨u, hu⟩
      rw [← length_asciiBytes, ← length_asciiBytes]
      obtain ⟨w, hname, -⟩ | ⟨w, hlonger, hw⟩ := List.append_eq_append_iff.mp hu
      · rw [hname, List.length_append]
        omega
      · cases w with
        | nil => rw [hlonger, List.append_nil]
        | cons b w =>
            obtain ⟨rfl, -⟩ := List.cons.inj hw
            exact absurd (hlonger ▸ by simp) (hnone p hp)

end Escape

/-! ## The reader of escapes -/

/-- A caret is followed by a character from `@` to `_`. -/
theorem controlEscape?_eq_some {b : UInt8} {c : CodePoint} :
    controlEscape? b = some c ↔ 0x40 ≤ b ∧ b ≤ 0x5F ∧ c = .ofByte (b - 0x40) := by
  rw [controlEscape?]
  split
  · next h =>
    simp only [Bool.and_eq_true, decide_eq_true_eq] at h
    simp [h.1, h.2, eq_comm]
  · next h =>
    simp only [Bool.and_eq_true, decide_eq_true_eq] at h
    refine iff_of_false (Option.some_ne_none _).symm ?_
    rintro ⟨hlow, hhigh, -⟩
    exact h ⟨hlow, hhigh⟩

/-- A number is that of a character. -/
theorem numericEscape_eq_ok {n : Nat} {c : CodePoint} :
    numericEscape n = .ok c ↔ n = c.val ∧ ¬ c.isSurrogate := by
  rw [numericEscape, CodePoint.ofNat?]
  by_cases hn : n < 0x110000
  · rw [dif_pos hn]
    dsimp only
    by_cases hsurrogate : (⟨n, hn⟩ : CodePoint).isSurrogate
    · rw [if_pos hsurrogate]
      refine iff_of_false (error_ne_ok _ _) ?_
      rintro ⟨rfl, hc⟩
      exact hc hsurrogate
    · rw [if_neg hsurrogate]
      constructor
      · intro h
        cases h
        exact ⟨rfl, hsurrogate⟩
      · rintro ⟨rfl, -⟩
        rfl
  · rw [dif_neg hn]
    refine iff_of_false (error_ne_ok _ _) ?_
    rintro ⟨rfl, -⟩
    exact hn c.val_lt

namespace Reader

/-- A number is read as far as its digits go. -/
theorem run_numericEscape_iff {radix : Radix} {s t : Bytes} {c : CodePoint} :
    (do return numericEscape (← numeral radix) : Reader (Except Fault CodePoint)).run s
        = .ok (.ok c, t) ↔
      ∃ digits, (Escape.number radix digits).Means c ∧ (Escape.number radix digits).EndsAt t ∧
        s = digits ++ t := by
  rw [run_bind_eq_ok]
  constructor
  · rintro ⟨n, u, hnumeral, h⟩
    obtain ⟨hc, rfl⟩ := Prod.mk.inj (Except.ok.inj h)
    obtain ⟨rfl, hsurrogate⟩ := numericEscape_eq_ok.mp hc
    obtain ⟨hnumber, hrest⟩ := run_numeral_eq_ok.mp hnumeral
    obtain ⟨hne, hshort, hvalue⟩ := Radix.number_eq_ok.mp hnumber
    refine ⟨s.takeWhile radix.isDigit, ?_, ?_, ?_⟩
    · exact .number hne (fun b hb => List.mem_takeWhile_imp hb) hshort hvalue hsurrogate
    · intro b hb
      have hstop := List.head?_dropWhile_not radix.isDigit s
      rw [← hrest, Option.mem_def.mp hb] at hstop
      simpa using hstop
    · rw [hrest, List.takeWhile_append_dropWhile]
  · rintro ⟨digits, hmeans, hends, rfl⟩
    cases hmeans with
    | number hne hdigits hshort hvalue hsurrogate =>
        refine ⟨radix.value digits, t, run_numeral_append hne hdigits hshort hends, ?_⟩
        rw [numericEscape_eq_ok.mpr ⟨hvalue, hsurrogate⟩]
        rfl

/-- Digits are read as a number, behind the letter of their base. -/
theorem run_escapeBody_number {radix : Radix} {s : Bytes}
    (h : radix = .decimal → s.head?.any isDigit) :
    escapeBody.run (radix.letter ++ s)
      = (do return numericEscape (← numeral radix) : Reader (Except Fault CodePoint)).run s := by
  cases radix with
  | octal => rfl
  | hexadecimal => rfl
  | decimal =>
      obtain ⟨b, r, rfl, hb⟩ := exists_cons_of_head? (h rfl)
      show escapeBody.run (b :: r) = _
      rw [escapeBody, run_bind_of_ok (run_remaining _)]
      simp only [simpleEscape?_of_isDigit hb, if_pos hb]

/-- Behind a caret stands a character that it makes a control character of. -/
theorem run_escapeBody_caret {b : UInt8} {c : CodePoint} (h : controlEscape? b = some c) (s : Bytes) :
    escapeBody.run (caret :: b :: s) = .ok (.ok c, s) := by
  have hsimple : simpleEscape? caret = none := by decide
  have hdigit : ¬ isDigit caret := by decide
  have ho : (caret == ascii 'o') = false := by decide
  have hx : (caret == ascii 'x') = false := by decide
  rw [escapeBody, run_bind_of_ok (run_remaining _)]
  simp only [hsimple, if_neg hdigit, ho, hx, beq_self_eq_true, List.head?_cons, Option.bind_some, h]
  rfl

/-- What starts no other escape is read as a name. -/
theorem run_escapeBody_named {b code : UInt8} {length : Nat} {s : Bytes}
    (hsimple : simpleEscape? b = none) (hdigit : ¬ isDigit b)
    (hother : b ≠ ascii 'o' ∧ b ≠ ascii 'x' ∧ b ≠ caret)
    (h : namedEscape? (b :: s) = some (code, length)) :
    escapeBody.run (b :: s) = .ok (.ok (.ofByte code), (b :: s).drop length) := by
  obtain ⟨ho, hx, hcaret⟩ := hother
  rw [escapeBody, run_bind_of_ok (run_remaining _)]
  simp only [hsimple, if_neg hdigit, beq_eq_false_iff_ne.mpr ho, beq_eq_false_iff_ne.mpr hx,
    beq_eq_false_iff_ne.mpr hcaret, h]
  rfl

/-- What is read as an escape is the spelling of what it gives, as far as it goes. -/
theorem exists_escape {s t : Bytes} {c : CodePoint} (h : escapeBody.run s = .ok (.ok c, t)) :
    ∃ e : Escape, e.Means c ∧ e.EndsAt t ∧ s = e.bytes ++ t := by
  rw [escapeBody, run_bind_of_ok (run_remaining _)] at h
  cases s with
  | nil => cases h
  | cons b r =>
      -- the kinds, in the order in which the reader tries them
      dsimp only at h
      split at h
      · next hsimple =>
        cases h
        exact ⟨.simple b, .simple hsimple, trivial, rfl⟩
      split at h
      · obtain ⟨digits, hmeans, hends, hs⟩ := run_numericEscape_iff.mp h
        exact ⟨_, hmeans, hends, hs⟩
      split at h
      · next ho =>
        obtain ⟨digits, hmeans, hends, rfl⟩ := run_numericEscape_iff.mp h
        exact ⟨_, hmeans, hends, by rw [beq_iff_eq.mp ho]; rfl⟩
      split at h
      · next hx =>
        obtain ⟨digits, hmeans, hends, rfl⟩ := run_numericEscape_iff.mp h
        exact ⟨_, hmeans, hends, by rw [beq_iff_eq.mp hx]; rfl⟩
      split at h
      · next hcaret =>
        split at h
        · next hbehind =>
          obtain ⟨d, hd, hcontrol⟩ := Option.bind_eq_some_iff.mp hbehind
          obtain ⟨u, rfl⟩ := List.head?_eq_some_iff.mp hd
          obtain ⟨hlow, hhigh, rfl⟩ := controlEscape?_eq_some.mp hcontrol
          cases h
          exact ⟨.control d, .control hlow hhigh, trivial, by rw [beq_iff_eq.mp hcaret]; rfl⟩
        · cases h
      split at h
      · next hnamed =>
        obtain ⟨name, u, hmem, hs, rfl, hlongest⟩ := exists_of_namedEscape? hnamed
        rw [run_skip_bind] at h
        obtain ⟨hc, hdrop⟩ := Prod.mk.inj (Except.ok.inj h)
        cases hc
        have hu : t = u := by
          rw [← hdrop, hs, ← length_asciiBytes, List.drop_left]
        rw [hs] at hlongest
        exact ⟨.named name, .named hmem, hu ▸ hlongest, hu ▸ hs⟩
      · cases h

/-- A spelling is read as what it stands for, where it ends. -/
theorem run_escapeBody {e : Escape} {c : CodePoint} {t : Bytes} (hmeans : e.Means c)
    (hends : e.EndsAt t) : escapeBody.run (e.bytes ++ t) = .ok (.ok c, t) := by
  cases hmeans with
  | @simple b _ hsimple =>
      show escapeBody.run (b :: t) = _
      rw [escapeBody, run_bind_of_ok (run_remaining _)]
      simp only [hsimple]
      rfl
  | @number radix digits _ hne hdigits hshort hvalue hsurrogate =>
      have hhead : radix = .decimal → (digits ++ t).head?.any isDigit := by
        rintro rfl
        exact head?_of_digits hne hdigits t
      rw [Escape.bytes, List.append_assoc, run_escapeBody_number hhead]
      exact run_numericEscape_iff.mpr
        ⟨digits, .number hne hdigits hshort hvalue hsurrogate, hends, rfl⟩
  | control hlow hhigh => exact run_escapeBody_caret (controlEscape?_eq_some.mpr ⟨hlow, hhigh, rfl⟩) t
  | @named name code hmem =>
      obtain ⟨b, r, hname, hsimple, hdigit, hother, -⟩ := name_starts hmem
      have hfound := namedEscape?_of_longest hmem hends
      have hdrop : (asciiBytes name ++ t).drop name.length = t := by
        rw [← length_asciiBytes, List.drop_left]
      show escapeBody.run (asciiBytes name ++ t) = _
      rw [hname, List.cons_append] at hfound hdrop ⊢
      rw [run_escapeBody_named hsimple hdigit hother hfound, hdrop]

/-- An escape is read exactly where a backslash and a spelling stand, up to where the
    spelling ends. -/
theorem run_escape_iff {s t : Bytes} {c : CodePoint} :
    escape.run (backslash :: s) = .ok (c, t) ↔
      ∃ e : Escape, e.Means c ∧ e.EndsAt t ∧ s = e.bytes ++ t := by
  rw [escape, run_fromStart_eq_ok, run_bind_of_ok (run_skipByte_cons backslash s)]
  constructor
  · exact exists_escape
  · rintro ⟨e, hmeans, hends, rfl⟩
    exact run_escapeBody hmeans hends

end Reader

end TerminalConfig
