import TerminalConfig.Proofs.Escapes
import TerminalConfig.Render.Literal

/-! # Literals — what is rendered between quotes reads back

    Between quotes a byte stands as itself, or as an escape (`byte_cases`).  The
    escape ends unless it fuses with what follows (`EscapesByte`), which is what the
    empty escape `\&` is put in for: digits behind a number, and behind a name what
    makes it a longer one (`longestName_of_not_fuses`).

    * `exists_stringItems`: the items of a string literal read back;
    * `exists_stringLiteral`: a string literal reads back;
    * `exists_charLiteral`: a character literal reads back. -/

namespace TerminalConfig

open Render (fuses)

/-! ## Bytes between quotes -/

/-- The escape stands for the byte, and ends unless the two fuse with what follows. -/
structure EscapesByte (e : Escape) (b : UInt8) : Prop where
  means : e.Means (.ofByte b)
  ends : ∀ r, (∀ next ∈ r.head?, ¬ fuses b next) → e.EndsAt r

/-- A name of the table is the start of a longer one only where it fuses with what
    follows. -/
theorem longestName_of_not_fuses {name : String} {code : UInt8} (h : (name, code) ∈ escapeNames)
    {r : Bytes} (hr : ∀ next ∈ r.head?, ¬ fuses code next) :
    LongestName name (asciiBytes name ++ r) := by
  have hlonger : ∀ p ∈ escapeNames, ∀ q ∈ escapeNames, asciiBytes q.1 <+: asciiBytes p.1 →
      p.1.length ≤ q.1.length ∨
        ((asciiBytes p.1).drop (asciiBytes q.1).length).head?.any (fuses q.2) := by
    decide +kernel
  rintro p hp hprefix
  by_contra hlength
  rw [Nat.not_le, ← length_asciiBytes, ← length_asciiBytes] at hlength
  obtain ⟨u, hu⟩ : asciiBytes name <+: asciiBytes p.1 :=
    List.prefix_of_prefix_length_le (List.prefix_append _ r) hprefix hlength.le
  rcases hlonger p hp _ h ⟨u, hu⟩ with hle | hfuses
  · rw [← length_asciiBytes, ← length_asciiBytes] at hle
    exact absurd hlength (Nat.not_lt.mpr hle)
  · rw [← hu, List.drop_left] at hfuses
    obtain ⟨next, u, rfl, hnext⟩ := exists_cons_of_head? hfuses
    obtain ⟨t, rfl⟩ := (List.prefix_append_right_inj _).mp (hu ▸ hprefix)
    exact hr next rfl hnext

/-- A control character is escaped by its name. -/
theorem escapesByte_named {name : String} {b : UInt8} (h : (name, b) ∈ escapeNames) :
    Prints (Text.ofString name) (asciiBytes name) ∧ EscapesByte (.named name) b := by
  have hprintable : ∀ p ∈ escapeNames, p.1.toList.all isPrintableChar := by decide
  exact ⟨Prints.ofString (hprintable _ h), .named h, fun r => longestName_of_not_fuses h⟩

/-- The names of the characters below the space are listed in the order of their
    codes. -/
theorem mem_escapeNames {b : UInt8} (h : b < 0x20) :
    (controlNames.getD b.toNat "", b) ∈ escapeNames := by
  have hall : ∀ n < 0x20, (controlNames.getD n "", UInt8.ofNat n) ∈ escapeNames := by decide
  have hmem := hall b.toNat (UInt8.lt_iff_toNat_lt.mp h)
  rwa [UInt8.ofNat_toNat] at hmem

/-- A byte from `0x80` on is escaped by its number. -/
theorem escapesByte_decimal {b : UInt8} (h : 0x80 ≤ b.toNat) :
    EscapesByte (.number .decimal (decimalBytes b.toNat)) b where
  means := Escape.means_decimal (c := .ofByte b)
    (CodePoint.not_isSurrogate_of_lt (Nat.lt_trans b.toNat_lt (by decide)))
  ends r hr := by
    intro next hnext hdigit
    rw [isDigit_decimal] at hdigit
    refine hr next hnext ?_
    rw [fuses, hdigit]
    simp [UInt8.le_iff_toNat_le, h]

/-- A quote or a backslash is escaped by itself. -/
theorem escapesByte_quoted {b : UInt8} (h : b = doubleQuote ∨ b = apostrophe ∨ b = backslash) :
    Prints (Text.ofBytes [backslash, b]) [backslash, b] ∧ EscapesByte (.simple b) b := by
  refine ⟨Prints.ofBytes ?_, .simple ?_, fun _ _ => trivial⟩
  · rcases h with rfl | rfl | rfl <;> decide
  · rcases h with rfl | rfl | rfl <;> rfl

/-- Between quotes a byte stands as itself or as an escape. -/
theorem byte_cases {quote : UInt8} (hquote : quote = doubleQuote ∨ quote = apostrophe)
    (b : UInt8) :
    (Render.byte quote b = Text.ofBytes [b] ∧ isPrintableAscii b ∧ b ≠ quote ∧ b ≠ backslash) ∨
    ∃ e : Escape, Prints (Render.byte quote b) (backslash :: e.bytes) ∧ EscapesByte e b := by
  have hbackslash : Prints "\\" [backslash] := Prints.ofString (by decide)
  rw [Render.byte]
  split
  · next hb =>
    have hb' : b = doubleQuote ∨ b = apostrophe ∨ b = backslash := by
      simp only [Bool.or_eq_true, beq_iff_eq] at hb
      rcases hb with rfl | rfl
      · rcases hquote with rfl | rfl
        · exact Or.inl rfl
        · exact Or.inr (Or.inl rfl)
      · exact Or.inr (Or.inr rfl)
    exact Or.inr ⟨.simple b, escapesByte_quoted hb'⟩
  split
  · next hb hprintable =>
    simp only [Bool.or_eq_true, beq_iff_eq, not_or] at hb
    exact Or.inl ⟨rfl, hprintable, hb.1, hb.2⟩
  split
  · next hcontrol =>
    obtain ⟨hprints, hescapes⟩ := escapesByte_named (mem_escapeNames hcontrol)
    exact Or.inr ⟨.named _, hbackslash.append hprints, hescapes⟩
  split
  · next hb =>
    obtain ⟨hprints, hescapes⟩ := @escapesByte_named "DEL" 0x7F (by decide)
    rw [beq_iff_eq.mp hb]
    exact Or.inr ⟨.named "DEL", hbackslash.append hprints, hescapes⟩
  · next hprintable hcontrol hdelete =>
    refine Or.inr ⟨.number .decimal _, hbackslash.append (prints_decimal _), escapesByte_decimal ?_⟩
    simp only [Bool.and_eq_true, decide_eq_true_eq, beq_iff_eq, UInt8.le_iff_toNat_le,
      UInt8.lt_iff_toNat_lt, ← UInt8.toNat_inj, UInt8.toNat_ofNat] at hprintable hcontrol hdelete
    omega

/-- Neither a backslash nor a quote fuses with an escape. -/
theorem not_fuses_of_quote {b next : UInt8}
    (h : next = backslash ∨ next = doubleQuote ∨ next = apostrophe) : ¬ fuses b next := by
  have hdigit : isDigit next = false := by
    rcases h with rfl | rfl | rfl <;> decide
  have hletter : (next == ascii 'H') = false := by
    rcases h with rfl | rfl | rfl <;> decide
  simp [fuses, hdigit, hletter]

/-- A printable byte is none of the controls that a literal leaves out. -/
theorem lt_of_isPrintableAscii {b : UInt8} (h : isPrintableAscii b) : maxLiteralControl < b := by
  have := (toNat_of_isPrintableAscii h).1
  rw [UInt8.lt_iff_toNat_lt]
  show 26 < b.toNat
  omega

/-! ## String literals -/

namespace Reader

/-- Any other byte than a backslash stands for itself, from the controls up. -/
theorem run_stringItem_raw {b : UInt8} (h : maxLiteralControl < b) (hb : b ≠ backslash)
    (r : Bytes) : stringItem.run (b :: r) = .ok (some (.ofByte b), r) := by
  rw [stringItem, run_bind_of_ok (run_remaining _)]
  simp only [bne_iff_ne, ne_eq, hb, not_false_eq_true, if_true, if_neg (UInt8.not_le.mpr h)]
  rfl

/-- An escape is read as an item: it starts neither the empty one nor a gap. -/
theorem run_stringItem_escape {e : Escape} {c : CodePoint} {t : Bytes} (h : e.Means c)
    (hends : e.EndsAt t) : stringItem.run (backslash :: (e.bytes ++ t)) = .ok (some c, t) := by
  have hescape := run_escape_iff.mpr ⟨e, h, hends, rfl⟩
  obtain ⟨b, r, hbytes, hampersand, hblank⟩ := h.starts
  rw [hbytes, List.cons_append] at hescape ⊢
  rw [stringItem, run_bind_of_ok (run_remaining _)]
  simp only [bne_self_eq_false, Bool.false_eq_true, if_false, List.head?_cons, Option.some.injEq,
    hampersand, Option.any_some, hblank]
  rw [run_bind_of_ok hescape]
  rfl

end Reader

/-- A rendered byte is read as an item, if it does not fuse with what follows. -/
theorem exists_byte (b : UInt8) :
    ∃ w, Prints (Render.byte doubleQuote b) w ∧ (∃ c ∈ w.head?, c = b ∨ c = backslash) ∧
      ∀ {s u : Bytes} {text : Text}, (∀ next ∈ s.head?, ¬ fuses b next) →
        readItems s = .ok (.ok text, u) →
        readItems (w ++ s) = .ok (.ok (.ofByte b :: text), u) := by
  obtain ⟨htext, hprintable, hquote, hbackslash⟩ | ⟨e, hprints, hescapes⟩ :=
    byte_cases (Or.inl rfl) b
  · refine ⟨[b], htext ▸ Prints.ofBytes (by simpa using hprintable), ⟨b, rfl, Or.inl rfl⟩, ?_⟩
    intro s u text _ hs
    have hitem := Reader.run_stringItem_raw (lt_of_isPrintableAscii hprintable) hbackslash s
    exact readItems_item hquote hitem hs
  · refine ⟨_, hprints, ⟨backslash, rfl, Or.inr rfl⟩, ?_⟩
    intro s u text hfuses hs
    have hitem := Reader.run_stringItem_escape hescapes.means (hescapes.ends s hfuses)
    exact readItems_item (by decide) hitem hs

/-- What is rendered starts with the byte itself or with a backslash. -/
theorem head?_rendered {w : Bytes} {b : UInt8} {s : Bytes}
    (h : ∃ c ∈ w.head?, c = b ∨ c = backslash) (v : Bytes) :
    ∀ c ∈ (w ++ v).head?, c = backslash ∨ c = doubleQuote ∨ c ∈ (b :: s).head? := by
  obtain ⟨c, hc, hstart⟩ := h
  obtain ⟨w, rfl⟩ := List.head?_eq_some_iff.mp hc
  intro c' hc'
  rw [← Option.some.inj hc']
  rcases hstart with rfl | rfl
  · exact Or.inr (Or.inr rfl)
  · exact Or.inl rfl

/-- The empty escape adds nothing. -/
theorem readItems_emptyEscape {s u : Bytes} {text : Text} (h : readItems s = .ok (.ok text, u)) :
    readItems (backslash :: ampersand :: s) = .ok (.ok text, u) := by
  have hitem : Reader.stringItem.run (backslash :: ampersand :: s) = .ok (none, s) := rfl
  exact readItems_item (by decide) hitem h

/-- The items of a string literal read back up to its closing quote. -/
theorem exists_stringItems (s : Bytes) :
    ∃ w, Prints (Render.stringItems s) w ∧
      (∀ r, ∀ c ∈ (w ++ doubleQuote :: r).head?, c = backslash ∨ c = doubleQuote ∨ c ∈ s.head?) ∧
      ∀ r, readItems (w ++ doubleQuote :: r) = .ok (.ok (Text.ofBytes s), r) := by
  fun_induction Render.stringItems s with
  | case1 =>
      refine ⟨[], Prints.nil, ?_, readItems_quote⟩
      intro r c hc
      exact Or.inr (Or.inl (Option.some.inj hc).symm)
  | case2 b =>
      obtain ⟨w, hprints, hstart, hread⟩ := exists_byte b
      refine ⟨w, hprints, fun r => head?_rendered hstart _, ?_⟩
      intro r
      refine hread ?_ (readItems_quote r)
      intro next hnext
      exact not_fuses_of_quote (Or.inr (Or.inl (Option.some.inj hnext).symm))
  | case3 b next s ih =>
      obtain ⟨w, hprints, hstart, hread⟩ := exists_byte b
      obtain ⟨v, hprints', hstart', hread'⟩ := ih
      by_cases hfuses : fuses b next
      · -- the empty escape keeps the two apart
        rw [if_pos hfuses]
        have hempty : Prints (Text.ofString "\\&") [backslash, ampersand] :=
          Prints.ofString (by decide)
        refine ⟨w ++ [backslash, ampersand] ++ v, (hprints.append hempty).append hprints', ?_, ?_⟩
        · intro r
          rw [List.append_assoc, List.append_assoc]
          exact head?_rendered hstart _
        · intro r
          rw [List.append_assoc, List.append_assoc]
          refine hread ?_ (readItems_emptyEscape (hread' r))
          intro next hnext
          exact not_fuses_of_quote (Or.inl (Option.some.inj hnext).symm)
      · rw [if_neg hfuses, List.append_nil]
        refine ⟨w ++ v, hprints.append hprints', ?_, ?_⟩
        · intro r
          rw [List.append_assoc]
          exact head?_rendered hstart _
        · intro r
          rw [List.append_assoc]
          refine hread ?_ (hread' r)
          intro c hc
          -- what follows starts with an escape, the closing quote or the next byte itself
          rcases hstart' r c hc with rfl | rfl | hnext
          · exact not_fuses_of_quote (Or.inl rfl)
          · exact not_fuses_of_quote (Or.inr (Or.inl rfl))
          · rw [← Option.some.inj hnext]
            exact hfuses

/-- A string literal reads back as the bytes that it was rendered from. -/
theorem exists_stringLiteral (s : Bytes) :
    ∃ w, Prints (Render.stringLiteral s) w ∧ w.head? = some doubleQuote ∧
      ∀ r, Reader.quotedString.run (w ++ r) = .ok (Text.ofBytes s, r) := by
  obtain ⟨w, hprints, -, hread⟩ := exists_stringItems s
  have hquote : Prints (Text.ofString "\"") [doubleQuote] := Prints.ofString (by decide)
  refine ⟨[doubleQuote] ++ w ++ [doubleQuote], (hquote.append hprints).append hquote, rfl, ?_⟩
  intro r
  rw [List.append_assoc, List.append_assoc]
  exact Reader.run_fromStart_eq_ok.mpr (hread r)

/-! ## Character literals -/

namespace Reader

/-- A character literal is a body between two quotes. -/
theorem run_quotedChar {a : UInt8} {s r : Bytes} {c : CodePoint}
    (h : charBody.run s = .ok (.ok c, apostrophe :: r)) :
    quotedChar.run (a :: s) = .ok (c, r) := by
  refine run_fromStart_eq_ok.mpr (run_bind_eq_ok.mpr ⟨(), s, run_skipByte_cons a s, ?_⟩)
  refine run_bind_eq_ok.mpr ⟨_, _, h, ?_⟩
  rfl

theorem run_charBody_raw {b : UInt8} (h : isPrintableAscii b) (hquote : b ≠ apostrophe)
    (hb : b ≠ backslash) (r : Bytes) : charBody.run (b :: r) = .ok (.ok (.ofByte b), r) := by
  have hcontrol := lt_of_isPrintableAscii h
  rw [charBody, run_bind_of_ok (run_ahead _)]
  simp only [List.head?_cons, beq_eq_false_iff_ne.mpr hb, Bool.false_eq_true, if_false, bne_iff_ne,
    ne_eq, hquote, not_false_eq_true, hcontrol, decide_true, Bool.and_true, if_true]
  rfl

theorem run_charBody_escape {e : Escape} {c : CodePoint} {t : Bytes} (h : e.Means c)
    (hends : e.EndsAt t) : charBody.run (backslash :: (e.bytes ++ t)) = .ok (.ok c, t) := by
  rw [charBody, run_bind_of_ok (run_ahead _)]
  exact run_bind_eq_ok.mpr ⟨c, t, run_escape_iff.mpr ⟨e, h, hends, rfl⟩, rfl⟩

end Reader

/-- A character literal reads back as the character that it was rendered from. -/
theorem exists_charLiteral {c : CodePoint} (hc : ¬ c.isSurrogate) :
    ∃ w, Prints (Render.charLiteral c) w ∧ w.head? = some apostrophe ∧
      ∀ r, Reader.quotedChar.run (w ++ r) = .ok (c, r) := by
  have hquote : Prints (Text.ofString "\x27") [apostrophe] := Prints.ofString (by decide)
  rw [Render.charLiteral]
  split
  · next hbyte =>
    have hval : (CodePoint.ofByte (UInt8.ofNat c.val)) = c := by
      ext
      exact UInt8.toNat_ofNat_of_lt' (Nat.lt_succ_of_le hbyte)
    obtain ⟨htext, hprintable, hb, hbackslash⟩ | ⟨e, hprints, hescapes⟩ :=
      byte_cases (Or.inr rfl) (UInt8.ofNat c.val)
    · rw [htext]
      refine ⟨_, (hquote.append (Prints.ofBytes (by simpa using hprintable))).append hquote,
        rfl, ?_⟩
      intro r
      have hread := Reader.run_charBody_raw hprintable hb hbackslash (apostrophe :: r)
      rw [hval] at hread
      exact Reader.run_quotedChar hread
    · refine ⟨_, (hquote.append hprints).append hquote, rfl, ?_⟩
      intro r
      have hends := hescapes.ends (apostrophe :: r) fun next hnext =>
        not_fuses_of_quote (Or.inr (Or.inr (Option.some.inj hnext).symm))
      have hmeans := hescapes.means
      rw [hval] at hmeans
      rw [List.append_assoc]
      exact Reader.run_quotedChar (Reader.run_charBody_escape hmeans hends)
  · have hstart : Prints (Text.ofString "\x27\\") [apostrophe, backslash] :=
      Prints.ofString (by decide)
    refine ⟨_, (hstart.append (prints_decimal c.val)).append hquote, rfl, ?_⟩
    intro r
    rw [List.append_assoc]
    refine Reader.run_quotedChar (Reader.run_charBody_escape (Escape.means_decimal hc) ?_)
    intro next hnext
    rw [← Option.some.inj hnext]
    decide

end TerminalConfig
