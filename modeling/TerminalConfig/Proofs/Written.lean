import TerminalConfig.Proofs.Catalogued
import TerminalConfig.Proofs.Grammar
import TerminalConfig.Proofs.Literals
import TerminalConfig.Proofs.Numerals
import TerminalConfig.Render

/-! # Written values — what is rendered is read as its tokens

    `Writes w tokens` says that the bytes `w` are read as these tokens wherever
    a word may end behind them.  Written values are put together with single
    spaces (`Writes.space`), so a rendered directive is read as the tokens that
    spell it (`exists_entry`, `exists_debugLog`). -/

namespace TerminalConfig

/-- A word that stands in front of these bytes ends there. -/
def EndsWord (r : Bytes) : Prop :=
  ∀ b ∈ r.head?, ¬ continuesIdentifier b

/-- The bytes are read as these tokens, with the gap behind them. -/
def Writes (w : Bytes) (tokens : List Token) : Prop :=
  ∀ ⦃r t : Bytes⦄, EndsWord r → skipGap r = .ok t → Tokens (w ++ r) tokens t

theorem endsWord_cons {b : UInt8} (h : ¬ continuesIdentifier b) (r : Bytes) :
    EndsWord (b :: r) := by
  intro c hc
  rw [← Option.some.inj hc]
  exact h

theorem skipGap_space (r : Bytes) : skipGap (asciiBytes " " ++ r) = skipGap r :=
  skipGap_blank (by decide) r

/-- Two texts with a space between them print as their bytes. -/
theorem Prints.space {t u : Text} {w v : Bytes} (h : Prints t w) (h' : Prints u v) :
    Prints (t ++ Text.ofString " " ++ u) (w ++ asciiBytes " " ++ v) := by
  have hspace : Prints (Text.ofString " ") (asciiBytes " ") := Prints.ofString (by decide)
  exact (h.append hspace).append h'

/-! ## Where tokens stand -/

/-- Where a token stands, no gap starts. -/
theorem TokenAt.settled {s t : Bytes} {token : Token} (h : TokenAt s token t) : Settled s := by
  obtain ⟨_, -, h⟩ | ⟨_, -, h⟩ | ⟨_, -, h⟩ | ⟨_, -, h⟩ | ⟨b, g, -, hb, rfl, -⟩ := h.cases
  · obtain ⟨r, rfl⟩ := List.head?_eq_some_iff.mp (Reader.run_stringLiteral_eq_ok.mp h).1
    exact settled_of_byte (by decide) (by decide) (by decide) r
  · obtain ⟨r, rfl⟩ := List.head?_eq_some_iff.mp (Reader.head?_of_charLiteral h)
    exact settled_of_byte (by decide) (by decide) (by decide) r
  · obtain ⟨b, r, rfl, hb⟩ := exists_cons_of_head? (Reader.head?_of_natural h)
    exact settled_of_continuesIdentifier (continuesIdentifier_of_isDigit hb) r
  · obtain ⟨b, r, rfl, hb⟩ := exists_cons_of_head? (Reader.run_identifier_eq_ok.mp h).1
    exact settled_of_continuesIdentifier (Reader.continuesIdentifier_of_starts hb) r
  · simp only [isSymbol, Bool.or_eq_true, beq_iff_eq] at hb
    rcases hb with (rfl | rfl) | rfl <;>
      exact settled_of_byte (by decide) (by decide) (by decide) g

theorem Tokens.settled {s t : Bytes} {tokens : List Token} (h : Tokens s tokens t)
    (hne : tokens ≠ []) : Settled s := by
  cases h with
  | nil => exact absurd rfl hne
  | cons htoken => exact htoken.settled

namespace Writes

variable {w v : Bytes} {tokens later : List Token}

/-- A space keeps two written values apart. -/
theorem space (h : Writes w tokens) (h' : Writes v later) (hne : later ≠ []) :
    Writes (w ++ asciiBytes " " ++ v) (tokens ++ later) := by
  intro r t hr hgap
  have hlater := h' hr hgap
  have hword : EndsWord (asciiBytes " " ++ (v ++ r)) := endsWord_cons (by decide) _
  have hskip : skipGap (asciiBytes " " ++ (v ++ r)) = .ok (v ++ r) :=
    (skipGap_space _).trans (hlater.settled hne)
  rw [List.append_assoc, List.append_assoc]
  exact tokens_append.mpr ⟨v ++ r, h hword hskip, hlater⟩

end Writes

/-! ## Single tokens -/

/-- A name that is written as an identifier. -/
def isWord (name : String) : Bool :=
  name.toList.all isPrintableChar && (asciiBytes name).head?.any startsIdentifier
    && (asciiBytes name).all continuesIdentifier && latinString (asciiBytes name) == name

/-- A word prints as its bytes, and they are read as an identifier. -/
theorem exists_word {name : String} (h : isWord name) :
    Prints name (asciiBytes name) ∧ Writes (asciiBytes name) [.identifier name] := by
  simp only [isWord, Bool.and_eq_true, beq_iff_eq] at h
  obtain ⟨⟨⟨hprintable, hstart⟩, hall⟩, hname⟩ := h
  refine ⟨Prints.ofString hprintable, ?_⟩
  intro r t hr hgap
  refine tokens_singleton.mpr (tokenAt_identifier.mpr (Reader.run_identifier_eq_ok.mpr ?_))
  have hhead : (asciiBytes name ++ r).head?.any startsIdentifier := by
    obtain ⟨b, w, hw, hb⟩ := exists_cons_of_head? hstart
    rw [hw]
    exact hb
  obtain ⟨htake, hdrop⟩ := takeWhile_append_of_stop (List.all_eq_true.mp hall) hr
  rw [htake, hdrop]
  exact ⟨hhead, hname.symm, hgap⟩

/-- A rendered string is read as the text of its bytes. -/
theorem exists_string (s : Bytes) :
    ∃ w, Prints (Render.stringLiteral s) w ∧ Writes w [.string (Text.ofBytes s)] := by
  obtain ⟨w, hprints, hhead, hread⟩ := exists_stringLiteral s
  refine ⟨w, hprints, ?_⟩
  intro r t _ hgap
  refine tokens_singleton.mpr (tokenAt_string.mpr (Reader.run_stringLiteral_eq_ok.mpr ⟨?_, ?_⟩))
  · obtain ⟨w, rfl⟩ := List.head?_eq_some_iff.mp hhead
    rfl
  · exact Reader.run_lexeme_eq_ok.mpr ⟨r, hread r, hgap⟩

/-- A rendered character is read as it. -/
theorem exists_char {c : CodePoint} (hc : ¬ c.isSurrogate) :
    ∃ w, Prints (Render.charLiteral c) w ∧ Writes w [.char c] := by
  obtain ⟨w, hprints, hhead, hread⟩ := exists_charLiteral hc
  refine ⟨w, hprints, ?_⟩
  intro r t _ hgap
  have hhead' : (w ++ r).head? = some apostrophe := by
    obtain ⟨w, rfl⟩ := List.head?_eq_some_iff.mp hhead
    rfl
  refine tokens_singleton.mpr (tokenAt_char.mpr ?_)
  rw [Reader.charLiteral, Reader.run_bind_of_ok (Reader.run_ahead _), if_pos hhead']
  exact Reader.run_lexeme_eq_ok.mpr ⟨r, hread r, hgap⟩

/-- A number ends where its word does. -/
theorem endsNumber_of_endsWord {r : Bytes} (h : EndsWord r) (radix : Radix) (digits : Bytes) :
    radix.EndsNumber digits r where
  digit b hb hdigit := h b hb (continuesIdentifier_of_radixDigit hdigit)
  mark _ _ b hb hmem := h b hb (Radix.continuesIdentifier_of_markLetter hmem)

/-- Digits behind the mark of their base are read as the number that they spell. -/
theorem writes_number {radix : Radix} {mark digits : Bytes} (hmark : mark ∈ radix.marks)
    (hne : digits ≠ []) (hdigits : ∀ b ∈ digits, radix.isDigit b)
    (hshort : radix = .decimal → digits.length ≤ maxDecimalDigits) :
    Writes (mark ++ digits) [.number (radix.value digits)] := by
  intro r t hr hgap
  rw [List.append_assoc]
  refine tokens_singleton.mpr (tokenAt_number.mpr ?_)
  exact Reader.run_natural_digits hmark hne hdigits hshort (endsNumber_of_endsWord hr _ _) hgap

/-- A number in decimal is read as it. -/
theorem writes_decimal {n : Nat} (hn : n < decimalLimit maxDecimalDigits) :
    Writes (decimalBytes n) [.number n] := by
  have hwrites : Writes ([] ++ decimalBytes n) [.number (Radix.decimal.value (decimalBytes n))] :=
    writes_number (List.mem_singleton.mpr rfl) (decimalBytes_ne_nil n)
      (fun _ => radixDigit_of_mem_decimalBytes) fun _ => length_decimalBytes_le (by decide) hn
  rwa [value_decimalBytes] at hwrites

/-! ## Values that can be written -/

/-- The names of the catalogs are words. -/
theorem isWord_key {name : String} {kind : Option PayloadKind} (h : (name, kind) ∈ Key.catalog) :
    isWord name := by
  have hall : Key.catalog.all (fun p => isWord p.1) = true := by decide
  have hname := List.all_eq_true.mp hall (name, kind) h
  exact hname

theorem isWord_modifier {name : String} (h : name ∈ Modifier.catalog) : isWord name :=
  List.all_eq_true.mp (by decide : Modifier.catalog.all isWord) name h

/-- A text that stands for bytes is rendered as the string of these bytes. -/
theorem exists_text {t : Text} (h : t.StandsForBytes) :
    ∃ line w s, Render.text t = .ok line ∧ Prints line w ∧
      Writes w [.string (Text.ofBytes s)] ∧ (Text.ofBytes s).payloadText = t := by
  obtain ⟨s, rfl⟩ := h
  obtain ⟨w, hprints, hwrites⟩ := exists_string s
  refine ⟨_, w, s, ?_, hprints, hwrites, ?_⟩
  · rw [Render.text, Utf8.encodeEscaped?_decodeEscaped]
  · rw [Text.payloadText, Text.payload_ofBytes]

/-- A key of the catalog is rendered as the tokens that spell it, if its number has a
    numeral. -/
theorem exists_key {k : Key} (h : k.Declared) (hfits : k.NumberFits) :
    ∃ line w tokens, Render.key k = .ok line ∧ Prints line w ∧ Writes w tokens ∧
      SpellsKey tokens k := by
  obtain ⟨name, payload⟩ := k
  obtain ⟨kind, hmem, hpayload⟩ := h
  obtain ⟨hname, hword⟩ := exists_word (isWord_key hmem)
  cases hpayload with
  | none => exact ⟨_, _, _, rfl, hname, hword, .intro hmem .none⟩
  | @char c hc =>
      obtain ⟨w, hprints, hwrites⟩ := exists_char hc
      exact ⟨_, _, _, rfl, hname.space hprints,
        hword.space hwrites (by simp), .intro hmem (.char c)⟩
  | int n =>
      have hlimit : (n : Int).natAbs < decimalLimit maxDecimalDigits := hfits n rfl
      have hnumber : Render.number n = .ok (Text.decimal n) := by
        have hsign : ¬ (n : Int) < 0 := by omega
        rw [Render.number, if_pos hlimit, if_neg hsign]
        rfl
      refine ⟨_, _, _, ?_, hname.space (prints_decimal n),
        hword.space (writes_decimal hlimit) (by simp), .intro hmem (.int n)⟩
      simp only [Render.key, hnumber]
      rfl

/-! ## Lists of modifiers -/

/-- The elements of a list after the first one, as they are rendered. -/
def laterModifiers (ms : List Modifier) : Text :=
  ms.flatMap fun m => Text.ofString ", " ++ Text.ofString m.name

/-- A list is rendered as its first element and the later ones. -/
theorem modifiers_cons (m : Modifier) (ms : List Modifier) :
    Render.modifiers (m :: ms)
      = "[" ++ (Text.ofString m.name ++ laterModifiers ms) ++ "]" := by
  have hitems : (((m :: ms).map fun m => Text.ofString m.name).intersperse
      (Text.ofString ", ")).flatten = Text.ofString m.name ++ laterModifiers ms := by
    induction ms generalizing m with
    | nil => simp [laterModifiers]
    | cons m' ms ih =>
        have := ih m'
        rw [List.map_cons] at this
        rw [List.map_cons, List.map_cons, List.intersperse_cons_cons, List.flatten_cons,
          List.flatten_cons, this, laterModifiers, laterModifiers, List.flatMap_cons]
        simp only [List.append_assoc]
  rw [Render.modifiers, hitems]

/-- The later elements are read up to the closing bracket. -/
theorem exists_laterModifiers {ms : List Modifier} (h : ∀ m ∈ ms, m.name ∈ Modifier.catalog) :
    ∃ w tokens, Prints (laterModifiers ms) w ∧ SpellsElements SpellsModifier tokens ms ∧
      ∀ ⦃r t : Bytes⦄, skipGap r = .ok t → EndsWord (w ++ closeBracket :: r) ∧
        Tokens (w ++ closeBracket :: r) (tokens ++ [.symbol closeBracket]) t := by
  induction ms with
  | nil =>
      refine ⟨[], [], Prints.nil, .nil, ?_⟩
      intro r t hgap
      exact ⟨endsWord_cons (by decide) r,
        tokens_singleton.mpr (tokenAt_symbol.mpr ⟨by decide, r, rfl, hgap⟩)⟩
  | cons m ms ih =>
      obtain ⟨w, tokens, hprints, hspells, hread⟩ :=
        ih fun m' hm' => h m' (List.mem_cons_of_mem m hm')
      have hmem := h m List.mem_cons_self
      obtain ⟨hnamePrints, hword⟩ := exists_word (isWord_modifier hmem)
      have hcomma : Prints (Text.ofString ", ") (asciiBytes ", ") := Prints.ofString (by decide)
      refine ⟨asciiBytes ", " ++ asciiBytes m.name ++ w, _,
        (hcomma.append hnamePrints).append hprints, .cons (.intro hmem) hspells, ?_⟩
      intro r t hgap
      -- read from behind: each token needs to know that no gap starts at the next one
      obtain ⟨hends, htokens⟩ := hread hgap
      have hname := hword hends (htokens.settled (by simp))
      have hcommaRead : TokenAt (asciiBytes ", " ++ (asciiBytes m.name ++ (w ++ closeBracket :: r)))
          (.symbol comma) (asciiBytes m.name ++ (w ++ closeBracket :: r)) :=
        tokenAt_symbol.mpr ⟨by decide, _, rfl,
          (skipGap_space _).trans (hname.settled (by simp))⟩
      rw [List.append_assoc, List.append_assoc]
      have hrest : Tokens (asciiBytes m.name ++ (w ++ closeBracket :: r))
          ([.identifier m.name] ++ tokens ++ [.symbol closeBracket]) t := by
        rw [List.append_assoc]
        exact tokens_append.mpr ⟨_, hname, htokens⟩
      exact ⟨endsWord_cons (by decide) _, .cons hcommaRead hrest⟩

/-- A list of modifiers is rendered as the tokens that spell it. -/
theorem exists_modifiers {ms : List Modifier} (h : ∀ m ∈ ms, m.name ∈ Modifier.catalog) :
    ∃ w tokens, Prints (Render.modifiers ms) w ∧ Writes w tokens ∧ tokens ≠ [] ∧
      SpellsList SpellsModifier tokens ms := by
  have hopen : Prints (Text.ofString "[") [openBracket] := Prints.ofString (by decide)
  have hclose : Prints (Text.ofString "]") [closeBracket] := Prints.ofString (by decide)
  have hopenRead : ∀ {r t : Bytes}, skipGap r = .ok t → TokenAt (openBracket :: r)
      (.symbol openBracket) t := fun hgap => tokenAt_symbol.mpr ⟨by decide, _, rfl, hgap⟩
  cases ms with
  | nil =>
      refine ⟨[openBracket, closeBracket], _, hopen.append hclose, ?_, by simp, .empty⟩
      intro r t _ hgap
      have hcloseRead : TokenAt (closeBracket :: r) (.symbol closeBracket) t :=
        tokenAt_symbol.mpr ⟨by decide, _, rfl, hgap⟩
      exact .cons (hopenRead hcloseRead.settled) (tokens_singleton.mpr hcloseRead)
  | cons m ms =>
      obtain ⟨w, tokens, hprints, hspells, hread⟩ :=
        exists_laterModifiers fun m' hm' => h m' (List.mem_cons_of_mem m hm')
      have hmem := h m List.mem_cons_self
      obtain ⟨hnamePrints, hword⟩ := exists_word (isWord_modifier hmem)
      rw [modifiers_cons]
      refine ⟨_, _, (hopen.append (hnamePrints.append hprints)).append hclose, ?_,
        by simp, .items (.intro hmem) hspells⟩
      intro r t _ hgap
      obtain ⟨hends, htokens⟩ := hread hgap
      have hname := hword hends (htokens.settled (by simp))
      have hassoc : [openBracket] ++ (asciiBytes m.name ++ w) ++ [closeBracket] ++ r
          = openBracket :: (asciiBytes m.name ++ (w ++ closeBracket :: r)) := by simp
      rw [hassoc]
      exact .cons (hopenRead (hname.settled (by simp))) (tokens_append.mpr ⟨_, hname, htokens⟩)

/-! ## Directives -/

/-- An event is rendered as the tokens that spell it. -/
theorem exists_event {e : Event} (hkey : e.key.Declared) (hfits : e.key.NumberFits)
    (hmodifiers : ∀ m ∈ e.modifiers, m.name ∈ Modifier.catalog) :
    ∃ line w keys list, Render.event e = .ok line ∧ Prints line w ∧ Writes w (keys ++ list) ∧
      keys ++ list ≠ [] ∧ SpellsKey keys e.key ∧ SpellsList SpellsModifier list e.modifiers := by
  obtain ⟨line, w, keys, hline, hprints, hwrites, hspells⟩ := exists_key hkey hfits
  obtain ⟨v, list, hprints', hwrites', hne, hspells'⟩ := exists_modifiers hmodifiers
  refine ⟨_, _, keys, list, ?_, hprints.space hprints',
    hwrites.space hwrites' hne, by simp [hne], hspells, hspells'⟩
  simp only [Render.event, hline]
  rfl

/-- The terminals of an entry are rendered as the tokens that spell them. -/
theorem exists_terminal {term : Option Text} (h : ∀ t ∈ term, t.StandsForBytes) :
    ∃ line w tokens, Render.terminalFilter term = .ok line ∧ Prints line w ∧ Writes w tokens ∧
      tokens ≠ [] ∧ SpellsTerminal tokens term := by
  cases term with
  | none =>
      obtain ⟨hprints, hword⟩ := @exists_word "_" (by decide)
      exact ⟨_, _, _, rfl, hprints, hword, by simp, .every⟩
  | some term =>
      obtain ⟨line, w, s, hline, hprints, hwrites, hpayload⟩ := exists_text (h term rfl)
      exact ⟨line, w, _, hline, hprints, hwrites, by simp, hpayload ▸ .named _⟩

/-- An entry is rendered as the tokens that spell its directive. -/
theorem exists_entry {e : Entry} (h : e.Catalogued) :
    ∃ line w tokens, Render.entry e = .ok line ∧ Prints line w ∧ Writes w tokens ∧
      Directive.Spells tokens (.map e) := by
  obtain ⟨line, w, terminal, hline, hprints, hwrites, hne, hterminal⟩ := exists_terminal h.term
  obtain ⟨data, hdata, hdataWrites⟩ := exists_string e.data
  obtain ⟨line', v, keys, list, hline', hprints', hwrites', hne', hkey, hlist⟩ :=
    exists_event h.key h.fits h.modifiers
  have hword := (@exists_word "map" (by decide)).2
  have hmap : Prints (Text.ofString "map ") (asciiBytes "map" ++ asciiBytes " ") :=
    @Prints.ofString "map " (by decide)
  have hprintsAll := ((hmap.append hprints).space hdata).space hprints'
  have hwritesAll := ((hword.space hwrites hne).space hdataWrites (by simp)).space
    hwrites' hne'
  refine ⟨_, _, _, ?_, hprintsAll, hwritesAll, ?_⟩
  · simp only [Render.entry, hline, hline']
    rfl
  · have hspells := Directive.Spells.map (Text.ofBytes e.data) hterminal hkey hlist
    rw [Text.payload_ofBytes] at hspells
    simpa using hspells

/-- A debug log is rendered as the tokens that spell its directive. -/
theorem exists_debugLog {path : Text} (h : path.StandsForBytes) :
    ∃ line w tokens, Render.debugLog path = .ok line ∧ Prints line w ∧ Writes w tokens ∧
      Directive.Spells tokens (.debugLog path) := by
  obtain ⟨line, w, s, hline, hprints, hwrites, hpayload⟩ := exists_text h
  have hword := (@exists_word "debugLog" (by decide)).2
  have hkeyword : Prints (Text.ofString "debugLog ") (asciiBytes "debugLog" ++ asciiBytes " ") :=
    @Prints.ofString "debugLog " (by decide)
  refine ⟨_, _, _, ?_, hkeyword.append hprints, hword.space hwrites (by simp), ?_⟩
  · simp only [Render.debugLog, hline]
    rfl
  · rw [← hpayload]
    exact .debugLog _

end TerminalConfig
