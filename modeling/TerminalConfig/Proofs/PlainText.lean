import TerminalConfig.Proofs.Lines
import TerminalConfig.Proofs.SourceText
import TerminalConfig.Proofs.StringForms
import TerminalConfig.Proofs.Values

/-! # Plain text — what needs no escape means what it says

    All characters but the quote, the backslash and the controls up to code 26 may
    stand in a string as they are.  They stand there as the bytes of their
    encodings, and among these are bytes that are blanks or controls elsewhere, such
    as `0xA0` and `0x85`.  Between quotes they are bytes like others.

    * The bytes of plain characters are plain (`isPlainByte_of_mem_encode`), and each
      plain byte is an item that stands for itself (`items_plain`).
    * So a plain literal is read as the token of its bytes, which is also what the
      rendering of these bytes is read as (`writes_rawLiteral`, `exists_string`).
    * The text that the bytes stand for is the one that was encoded
      (`Utf8.decodeEscaped_encodeAll`).
    * A document that spells one directive says nothing else
      (`Document.read_of_writes`). -/

namespace TerminalConfig

/-! ## Plain characters and plain bytes -/

/-- The byte may stand for itself in a string. -/
def isPlainByte (b : UInt8) : Bool :=
  26 < b && b != doubleQuote && b != backslash

/-- The character may stand for itself in a string. -/
def CodePoint.isPlain (c : CodePoint) : Bool :=
  !c.isSurrogate && 26 < c.val && c != .ofByte doubleQuote && c != .ofByte backslash

theorem isPlainByte_iff {b : UInt8} :
    isPlainByte b ↔ 26 < b.toNat ∧ b.toNat ≠ 0x22 ∧ b.toNat ≠ 0x5C := by
  have hne : ∀ {c : UInt8}, b ≠ c ↔ b.toNat ≠ c.toNat := UInt8.toNat_inj.not.symm
  simp only [isPlainByte, Bool.and_eq_true, decide_eq_true_eq, bne_iff_ne, UInt8.lt_iff_toNat_lt,
    hne, and_assoc]
  rfl

namespace CodePoint

theorem isPlain_iff {c : CodePoint} :
    c.isPlain ↔ ¬ c.isSurrogate ∧ 26 < c.val ∧ c.val ≠ 0x22 ∧ c.val ≠ 0x5C := by
  have hne : ∀ {d : CodePoint}, c ≠ d ↔ c.val ≠ d.val := by
    intro d
    exact not_congr ⟨congrArg val, CodePoint.ext⟩
  simp only [isPlain, Bool.and_eq_true, Bool.not_eq_true', Bool.not_eq_true, decide_eq_true_eq,
    bne_iff_ne, hne, and_assoc]
  rfl

end CodePoint

/-- The bytes of a plain character are plain: a character beyond ASCII has no byte in
    common with the ASCII ones. -/
theorem isPlainByte_of_mem_encode {c : CodePoint} (h : c.isPlain) {b : UInt8}
    (hb : b ∈ Utf8.encode c) : isPlainByte b := by
  obtain ⟨-, hcontrol, hquote, hbackslash⟩ := CodePoint.isPlain_iff.mp h
  rw [isPlainByte_iff]
  by_cases hascii : c.val < 0x80
  · rw [Utf8.encode_ascii hascii, List.mem_singleton] at hb
    have hval : b.toNat = c.val := by
      rw [hb, UInt8.toNat_ofNat_of_lt' (Nat.lt_trans hascii (by decide))]
    omega
  · have := Utf8.le_of_mem_encode (by omega) hb
    omega

/-- A text of plain characters. -/
def Text.IsPlain (t : Text) : Prop :=
  ∀ c ∈ t, c.isPlain

namespace Text.IsPlain

variable {t : Text}

theorem isChars (h : t.IsPlain) : t.IsChars :=
  fun c hc => (CodePoint.isPlain_iff.mp (h c hc)).1

/-- A plain text is encoded in plain bytes. -/
theorem encodeAll (h : t.IsPlain) : ∀ b ∈ Utf8.encodeAll t, isPlainByte b := by
  intro b hb
  obtain ⟨c, hc, hmem⟩ := List.mem_flatMap.mp hb
  exact isPlainByte_of_mem_encode (h c hc) hmem

end Text.IsPlain

/-! ## Literals without escapes -/

/-- A text between quotes, as it is. -/
def Text.inQuotes (t : Text) : Text :=
  "\"" ++ t ++ "\""

/-- Bytes between quotes, as they are. -/
def rawLiteral (d : Bytes) : Bytes :=
  doubleQuote :: (d ++ [doubleQuote])

/-- Plain bytes are items that stand for themselves. -/
theorem items_plain {d : Bytes} (h : ∀ b ∈ d, isPlainByte b) (g : Bytes) :
    Items (d ++ doubleQuote :: g) (Text.ofBytes d) g := by
  induction d with
  | nil => exact .close g
  | cons b d ih =>
      obtain ⟨hb, hd⟩ := List.forall_mem_cons.mp h
      simp only [isPlainByte, Bool.and_eq_true, decide_eq_true_eq, bne_iff_ne] at hb
      obtain ⟨⟨hcontrol, hquote⟩, hbackslash⟩ := hb
      exact .code (f := .raw b) (.raw hcontrol hquote hbackslash) trivial (ih hd)

/-- Plain bytes between quotes are read as the text of these bytes. -/
theorem writes_rawLiteral {d : Bytes} (h : ∀ b ∈ d, isPlainByte b) :
    Writes (rawLiteral d) [.string (Text.ofBytes d)] := by
  intro r t _ hgap
  have hbytes : rawLiteral d ++ r = doubleQuote :: (d ++ doubleQuote :: r) := by
    simp [rawLiteral]
  rw [hbytes]
  refine tokens_singleton.mpr (tokenAt_string.mpr (Reader.run_stringLiteral_eq_ok.mpr ⟨rfl, ?_⟩))
  refine Reader.run_lexeme_eq_ok.mpr ⟨r, Reader.run_fromStart_eq_ok.mpr ?_, hgap⟩
  exact readItems_iff.mpr (items_plain h r)

theorem Writes.run_stringLiteral {w : Bytes} {text : Text} (h : Writes w [.string text]) :
    Reader.stringLiteral.run w = .ok (text, []) :=
  tokenAt_string.mp (tokens_singleton.mp h.tokens_to_end)

/-- The bytes of a text of characters stand for this text. -/
theorem Utf8.decodeEscaped_encodeAll {t : Text} (h : t.IsChars) :
    decodeEscaped (encodeAll t) = t := by
  induction t with
  | nil => exact decodeEscaped_nil
  | cons c t ih =>
      obtain ⟨hc, ht⟩ := List.forall_mem_cons.mp h
      rw [encodeAll, List.flatMap_cons, decodeEscaped_of_some (decodeOne?_encode hc _)]
      exact congrArg (c :: ·) (ih ht)

theorem Text.IsPlain.payloadText {t : Text} (h : t.IsPlain) :
    (Text.ofBytes (Utf8.encodeAll t)).payloadText = t := by
  rw [Text.payloadText, Text.payload_ofBytes, Utf8.decodeEscaped_encodeAll h.isChars]

/-! ## Directives with such literals -/

/-- A text of characters whose encoding is these bytes. -/
structure Encodes (t : Text) (w : Bytes) : Prop where
  chars : t.IsChars
  bytes : Utf8.encodeAll t = w

namespace Encodes

variable {t u : Text} {w v : Bytes}

theorem append (h : Encodes t w) (h' : Encodes u v) : Encodes (t ++ u) (w ++ v) where
  chars c hc := (List.mem_append.mp hc).elim (h.chars c) (h'.chars c)
  bytes := by rw [Utf8.encodeAll_append, h.bytes, h'.bytes]

theorem ofPrints (h : Prints t w) : Encodes t w :=
  ⟨h.not_isSurrogate, h.encodeAll_eq⟩

/-- A plain text between quotes is its bytes between quotes. -/
theorem inQuotes (h : t.IsPlain) : Encodes t.inQuotes (rawLiteral (Utf8.encodeAll t)) := by
  have hquote : Encodes (Text.ofString "\"") [doubleQuote] :=
    .ofPrints (Prints.ofString (by decide))
  exact (hquote.append ⟨h.isChars, rfl⟩).append hquote

theorem buffer (h : Encodes t w) : (Source.text t).buffer = w := by
  rw [buffer_text h.chars, h.bytes]

end Encodes

/-- A debug log that is named by a plain literal. -/
theorem read_plain_debugLog {t : Text} (h : t.IsPlain) (source : Text) :
    Document.read source (Source.text ("debugLog " ++ t.inQuotes)).buffer
      = { value := { debugLog := some t } } := by
  have hkeyword : Encodes (Text.ofString "debugLog ") (asciiBytes "debugLog" ++ asciiBytes " ") :=
    .ofPrints (@Prints.ofString "debugLog " (by decide))
  have hwrites := (@exists_word "debugLog" (by decide)).2.space (writes_rawLiteral h.encodeAll)
    (by simp)
  rw [(hkeyword.append (.inQuotes h)).buffer, Document.read_of_writes hwrites (.debugLog _),
    h.payloadText]
  rfl

/-- An entry with a plain literal for its terminal and for its bytes, in front of any
    event that can be rendered. -/
theorem read_plain_map {t : Text} (h : t.IsPlain) {e : Event} {line : Text}
    (hkey : e.key.Declared) (hfits : e.key.NumberFits)
    (hmodifiers : ∀ m ∈ e.modifiers, m.name ∈ Modifier.catalog)
    (hline : Render.event e = .ok line) (source : Text) :
    Document.read source (Source.text
        ("map " ++ t.inQuotes ++ " " ++ t.inQuotes ++ (Text.ofString " " ++ line))).buffer
      = { value := { inputMap := [⟨some t, Utf8.encodeAll t, e⟩] } } := by
  obtain ⟨line', w, keys, list, hline', hprints, hevent, hne, hkeys, hlist⟩ :=
    exists_event hkey hfits hmodifiers
  obtain rfl : line' = line := Except.ok.inj (hline'.symm.trans hline)
  have hkeyword : Encodes (Text.ofString "map ") (asciiBytes "map" ++ asciiBytes " ") :=
    .ofPrints (@Prints.ofString "map " (by decide))
  have hspace : Encodes (Text.ofString " ") (asciiBytes " ") :=
    .ofPrints (Prints.ofString (by decide))
  -- the document as bytes, and then these bytes as tokens
  have hencodes := (((hkeyword.append (.inQuotes h)).append hspace).append (.inQuotes h)).append
    (hspace.append (.ofPrints hprints))
  have hraw := writes_rawLiteral h.encodeAll
  have hwrites := (((@exists_word "map" (by decide)).2.space hraw (by simp)).space hraw
    (by simp)).space hevent hne
  have hspells := Directive.Spells.map (Text.ofBytes (Utf8.encodeAll t))
    (.named (Text.ofBytes (Utf8.encodeAll t))) hkeys hlist
  rw [hencodes.buffer, ← List.append_assoc, Document.read_of_writes hwrites hspells, h.payloadText,
    Text.payload_ofBytes]
  rfl

/-! ## Text as it is written -/

/-- A plain text is taken as it is written, whatever it looks like: as the name of the
    debug log, and as the terminal and the bytes of an entry.  And plain bytes between
    quotes say what the rendering of these bytes says, namely these bytes. -/
theorem plainText_reads_as_written :
    (∀ source t : Text, t.IsPlain →
      Document.read source (Source.text ("debugLog " ++ t.inQuotes)).buffer
        = { value := { debugLog := some t } } ∧
      Document.read source
          (Source.text ("map " ++ t.inQuotes ++ " " ++ t.inQuotes ++ " KUp []")).buffer
        = { value := { inputMap := [⟨some t, Utf8.encodeAll t, ⟨⟨"KUp", none⟩, []⟩⟩] } }) ∧
    ∀ d : Bytes, (∀ b ∈ d, isPlainByte b) → ∃ text : Text, text.payload? = some d ∧
      Reader.stringLiteral.run (Source.bytes (rawLiteral d)).buffer = .ok (text, []) ∧
      Reader.stringLiteral.run (Source.text (Render.stringLiteral d)).buffer = .ok (text, []) := by
  refine ⟨?_, ?_⟩
  · intro source t h
    refine ⟨read_plain_debugLog h source, ?_⟩
    exact read_plain_map h (e := ⟨⟨"KUp", none⟩, []⟩) ⟨none, by decide, .none⟩ nofun (by simp) rfl source
  · intro d h
    obtain ⟨w, hprints, hrendered⟩ := exists_string d
    have hraw := (writes_rawLiteral h).run_stringLiteral
    refine ⟨Text.ofBytes d, ?_, hraw, ?_⟩
    · rw [Reader.payload?_of_stringLiteral hraw, Text.payload_ofBytes]
    · rw [(Encodes.ofPrints hprints).buffer]
      exact hrendered.run_stringLiteral

/-- A text that looks like comments and a directive, with a no-break space, a control
    character of the second kind and characters of two, three and four bytes, some of
    which have the bytes of such blanks and controls. -/
def disguisedText : Text :=
  Text.ofString "\x7b- map _ [] -- \u00A0\u0085 \u00E0\u00C5\u20AC😀 -\x7d\x27debugLog"

/-- It is taken as it is written, as a text and as its bytes. -/
theorem disguisedText_reads_as_written :
    disguisedText.IsPlain ∧ (∀ b ∈ Utf8.encodeAll disguisedText, isPlainByte b) ∧
      Document.read "" (Source.text ("debugLog " ++ disguisedText.inQuotes)).buffer
        = { value := { debugLog := some disguisedText } } ∧
      ∃ text : Text, text.payload? = some (Utf8.encodeAll disguisedText) ∧
        Reader.stringLiteral.run (Source.bytes (rawLiteral (Utf8.encodeAll disguisedText))).buffer
          = .ok (text, []) := by
  have hplain : disguisedText.IsPlain := List.all_eq_true.mp (by decide +kernel)
  have hbytes : ∀ b ∈ Utf8.encodeAll disguisedText, isPlainByte b :=
    List.all_eq_true.mp (by decide +kernel)
  obtain ⟨text, hpayload, hraw, -⟩ := plainText_reads_as_written.2 _ hbytes
  exact ⟨hplain, hbytes, (plainText_reads_as_written.1 "" _ hplain).1, text, hpayload, hraw⟩

end TerminalConfig
