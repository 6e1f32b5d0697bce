import TerminalConfig.Proofs.Statements
import TerminalConfig.Proofs.Written

/-! # Lines — a rendering is read line by line

    A line of a rendering is a comment or a directive.  A comment is passed
    with its line (`IsRemark`), whatever it quotes, since a quoted text holds
    no newline; a directive is read with its line (`Says`).  In both cases the
    text that follows has no part in it as long as its first gap closes, so a
    sequence of lines is read as the sequence of its directives
    (`fragments_append_unlines`). -/

namespace TerminalConfig

/-! ## Texts on one line -/

/-- The text has no newline and no surrogate. -/
def OneLine (t : Text) : Prop :=
  ∀ c ∈ t, ¬ c.isSurrogate ∧ c.val ≠ 0x0A

theorem OneLine.append {t u : Text} (h : OneLine t) (h' : OneLine u) : OneLine (t ++ u) :=
  fun c hc => (List.mem_append.mp hc).elim (h c) (h' c)

/-- A printed text is on one line. -/
theorem Prints.oneLine {t : Text} {w : Bytes} (h : Prints t w) : OneLine t := by
  intro c hc
  refine ⟨h.not_isSurrogate c hc, ?_⟩
  rw [h.text_eq] at hc
  obtain ⟨b, hb, rfl⟩ := List.mem_map.mp hc
  have := (toNat_of_isPrintableAscii (h.printable b hb)).1
  rw [CodePoint.val_ofByte]
  omega

/-- A text on one line stays on one line in the buffer. -/
theorem OneLine.newline_not_mem {t : Text} (h : OneLine t) : newline ∉ Utf8.encodeAll t := by
  intro hmem
  obtain ⟨c, hc, hb⟩ := List.mem_flatMap.mp hmem
  by_cases hascii : c.val < 0x80
  · rw [Utf8.encode_ascii hascii, List.mem_singleton] at hb
    have hval : newline.toNat = c.val := by
      rw [hb, UInt8.toNat_ofNat_of_lt' (Nat.lt_trans hascii (by decide))]
    exact (h c hc).2 hval.symm
  · exact absurd (Utf8.le_of_mem_encode (by omega) hb) (by decide)

/-! ## Quoted texts -/

/-- Every code point of the text is printable, in whatever script. -/
def Text.IsPrintable (t : Text) : Prop :=
  ∀ c ∈ t, c.isPrintable

/-- No control character, and no surrogate, is printable. -/
theorem CodePoint.range_of_isPrintable {c : CodePoint} (h : c.isPrintable) :
    0x20 ≤ c.val ∧ ¬ (0x7F ≤ c.val ∧ c.val ≤ 0x9F) ∧ ¬ c.isSurrogate := by
  have hout : ∀ r ∈ unprintableRanges, ¬ (r.1 ≤ c.val ∧ c.val ≤ r.2) := by
    rintro r hr ⟨hlo, hhi⟩
    rw [isPrintable_eq_false hr hlo hhi] at h
    cases h
  have hlow := hout (0x0, 0x1F) (by decide)
  have hdelete := hout (0x7F, 0xA0) (by decide)
  have hsurrogates := hout (0xD7FC, 0xF8FF) (by decide)
  simp only [isSurrogate, Bool.and_eq_true, decide_eq_true_eq]
  omega

/-- A printed text is printable. -/
theorem Prints.isPrintable {t : Text} {w : Bytes} (h : Prints t w) : t.IsPrintable := by
  intro c hc
  rw [h.text_eq] at hc
  obtain ⟨b, hb, rfl⟩ := List.mem_map.mp hc
  obtain ⟨hlo, hhi⟩ := toNat_of_isPrintableAscii (h.printable b hb)
  exact CodePoint.isPrintable_of_ascii hlo hhi

theorem oneLine_ofString {text : String} (h : text.toList.all isPrintableChar) : OneLine text :=
  (Prints.ofString h).oneLine

namespace Text

variable {t u : Text}

theorem IsPrintable.append (h : t.IsPrintable) (h' : u.IsPrintable) : IsPrintable (t ++ u) :=
  fun c hc => (List.mem_append.mp hc).elim (h c) (h' c)

/-- A printable text is on one line. -/
theorem IsPrintable.oneLine (h : t.IsPrintable) : OneLine t := by
  intro c hc
  have hrange := CodePoint.range_of_isPrintable (h c hc)
  exact ⟨hrange.2.2, by omega⟩

theorem isPrintable_ofString {text : String} (h : text.toList.all isPrintableChar) :
    IsPrintable text :=
  (Prints.ofString h).isPrintable

theorem isPrintable_hexDigits (width n : Nat) : IsPrintable (hexDigits width n) := by
  induction width generalizing n with
  | zero => exact fun _ hc => absurd hc List.not_mem_nil
  | succ width ih =>
      refine (ih (n / 16)).append ?_
      have hdigit : ∀ m, m < 16 → IsPrintable [hexDigit m] := by
        intro m hm c hc
        rw [List.mem_singleton.mp hc]
        have hval : 0x20 ≤ (hexDigit m).val ∧ (hexDigit m).val < 0x7F := by
          interval_cases m <;> decide
        exact CodePoint.isPrintable_of_ascii hval.1 hval.2
      exact hdigit _ (Nat.mod_lt n (by decide))

/-- The quote is one of the two. -/
theorem isPrintable_quoteFor (t : Text) : IsPrintable [quoteFor t] := by
  rw [quoteFor]
  split
  · exact @isPrintable_ofString "\"" (by decide)
  · exact @isPrintable_ofString "\x27" (by decide)

/-- A code point between quotes is written with printable ones only: what is not
    printable itself is written by its number. -/
theorem isPrintable_quotedOne {quote : CodePoint} (hquote : IsPrintable [quote]) (c : CodePoint) :
    IsPrintable (quotedOne quote c) := by
  rw [quotedOne]
  split
  · next h =>
    have hbackslash : IsPrintable [CodePoint.ofChar '\\'] := @isPrintable_ofString "\\" (by decide)
    refine hbackslash.append (u := [c]) ?_
    rcases h with rfl | rfl
    · exact hquote
    · exact hbackslash
  split
  · exact isPrintable_ofString (by decide)
  split
  · exact isPrintable_ofString (by decide)
  split
  · exact isPrintable_ofString (by decide)
  split
  · next h => exact fun d hd => List.mem_singleton.mp hd ▸ h
  split
  · exact (isPrintable_ofString (by decide)).append (isPrintable_hexDigits 2 _)
  split
  · exact (isPrintable_ofString (by decide)).append (isPrintable_hexDigits 4 _)
  · exact (isPrintable_ofString (by decide)).append (isPrintable_hexDigits 8 _)

/-- A quoted text is printable, whatever it quotes. -/
theorem isPrintable_quoted (t : Text) : t.quoted.IsPrintable := by
  have hquote := isPrintable_quoteFor t
  refine (hquote.append (t := [quoteFor t]) ?_).append hquote
  intro c hc
  obtain ⟨d, -, hd⟩ := List.mem_flatMap.mp hc
  exact isPrintable_quotedOne hquote d c hd

end Text

/-! ## Comments and directives -/

/-- The line is passed as a gap, whatever follows it. -/
def IsRemark (line : Text) : Prop :=
  ∀ r, skipGap (Utf8.encodeAll line ++ newline :: r) = skipGap r

/-- The line is read as a directive, if the gap behind it closes. -/
def Says (line : Text) (d : Directive) : Prop :=
  ∀ ⦃r t : Bytes⦄, skipGap r = .ok t →
    Settled (Utf8.encodeAll line ++ newline :: r) ∧
      Reader.directive.run (Utf8.encodeAll line ++ newline :: r) = .ok (d, t)

/-- A line that starts with two dashes is a comment. -/
theorem isRemark_of_oneLine {t : Text} (h : OneLine t) : IsRemark ("--" ++ t) := by
  have hdashes : Prints (Text.ofString "--") [dash, dash] := Prints.ofString (by decide)
  have hgap : ClosedGap (dash :: dash :: Utf8.encodeAll t ++ newline :: []) :=
    .line h.newline_not_mem .nil
  intro r
  rw [Utf8.encodeAll_append, hdashes.encodeAll_eq]
  have hskip := skipGap_append hgap r
  simpa using hskip

/-- A line that writes the tokens of a directive is read as it. -/
theorem says_of_writes {line : Text} {w : Bytes} {tokens : List Token} {d : Directive}
    (hprints : Prints line w) (hwrites : Writes w tokens) (hspells : d.Spells tokens) :
    Says line d := by
  intro r t hgap
  have hnewline : skipGap (newline :: r) = .ok t := (skipGap_newline r).trans hgap
  have htokens := hwrites (endsWord_cons (by decide) r) hnewline
  rw [hprints.encodeAll_eq]
  refine ⟨htokens.settled ?_, Reader.recognizes_directive.mpr ⟨tokens, hspells, htokens⟩⟩
  rintro rfl
  cases hspells

/-- What is written is read up to the end, if nothing stands behind it. -/
theorem Writes.tokens_to_end {w : Bytes} {tokens : List Token} (h : Writes w tokens) :
    Tokens w tokens [] := by
  have htokens := h (fun _ hb => absurd hb (Option.not_mem_none _)) skipGap_nil
  rwa [List.append_nil] at htokens

namespace Document

/-- A document that is one written directive says this directive, and there is nothing
    to report on it. -/
theorem read_of_writes {w : Bytes} {tokens : List Token} {d : Directive}
    (hwrites : Writes w tokens) (hspells : d.Spells tokens) (source : Text) :
    read source w = { value := d.fragment } := by
  have hne : tokens ≠ [] := by
    rintro rfl
    cases hspells
  have htokens := hwrites.tokens_to_end
  have hdirective := Reader.recognizes_directive.mpr ⟨tokens, hspells, htokens⟩
  have hnext := Statement.next?_of_directive (htokens.settled hne) hdirective
  have hstatements : statements w = [.directive d] := by
    rw [statements_of_next? hnext, statements_eq_nil.mpr skipGap_nil]
  rw [read, config, fragments, log, hstatements, List.map_singleton, Config.mergeAll_cons,
    Config.mergeAll_nil, Config.merge_empty]
  rfl

theorem config_of_writes {w : Bytes} {tokens : List Token} {d : Directive}
    (hwrites : Writes w tokens) (hspells : d.Spells tokens) : config w = d.fragment :=
  congrArg Logged.value (read_of_writes hwrites hspells "")

end Document

/-- Lines that are comments or are read as these directives, in order. -/
inductive LinesSay : List Text → List Directive → Prop
  | nil : LinesSay [] []
  | remark {line : Text} {lines : List Text} {ds : List Directive} : IsRemark line →
      LinesSay lines ds → LinesSay (line :: lines) ds
  | directive {line : Text} {lines : List Text} {d : Directive} {ds : List Directive} :
      Says line d → LinesSay lines ds → LinesSay (line :: lines) (d :: ds)

theorem LinesSay.append {lines more : List Text} {ds es : List Directive} (h : LinesSay lines ds)
    (h' : LinesSay more es) : LinesSay (lines ++ more) (ds ++ es) := by
  induction h with
  | nil => exact h'
  | remark hline _ ih => exact .remark hline ih
  | directive hline _ ih => exact .directive hline ih

/-- Comments alone say nothing. -/
theorem linesSay_remarks {lines : List Text} (h : ∀ line ∈ lines, IsRemark line) :
    LinesSay lines [] := by
  induction lines with
  | nil => exact .nil
  | cons line lines ih =>
      exact .remark (h line List.mem_cons_self) (ih fun l hl => h l (List.mem_cons_of_mem _ hl))

/-- Directives, a line each. -/
theorem linesSay_directives {lines : List Text} {ds : List Directive}
    (h : List.Forall₂ Says lines ds) : LinesSay lines ds := by
  induction h with
  | nil => exact .nil
  | cons hline _ ih => exact .directive hline ih

theorem encodeAll_unlines_cons (line : Text) (lines : List Text) (r : Bytes) :
    Utf8.encodeAll (Render.unlines (line :: lines)) ++ r
      = Utf8.encodeAll line ++ newline :: (Utf8.encodeAll (Render.unlines lines) ++ r) := by
  have hnewline : Utf8.encodeAll (Text.ofString "\n") = [newline] := by decide
  rw [Render.unlines, List.flatMap_cons, Utf8.encodeAll_append, Utf8.encodeAll_append, hnewline,
    ← Render.unlines]
  simp

/-- Lines are read as what they say, and then the text behind them is read, if
    its first gap closes. -/
theorem fragments_append_unlines {lines : List Text} {ds : List Directive}
    (h : LinesSay lines ds) {r t : Bytes} (hr : skipGap r = .ok t) :
    GapCloses (Utf8.encodeAll (Render.unlines lines) ++ r) ∧
      Document.fragments (Utf8.encodeAll (Render.unlines lines) ++ r)
        = ds.map Directive.fragment ++ Document.fragments r := by
  induction h with
  | nil => exact ⟨⟨t, hr⟩, rfl⟩
  | remark hline _ ih =>
      obtain ⟨⟨u, hu⟩, hfragments⟩ := ih
      rw [encodeAll_unlines_cons]
      have hskip := (hline _).trans hu
      refine ⟨⟨u, hskip⟩, ?_⟩
      rw [Document.fragments_of_skipGap hskip, ← Document.fragments_of_skipGap hu, hfragments]
  | directive hline _ ih =>
      obtain ⟨⟨u, hu⟩, hfragments⟩ := ih
      obtain ⟨hsettled, hrun⟩ := hline hu
      rw [encodeAll_unlines_cons]
      refine ⟨⟨_, hsettled⟩, ?_⟩
      rw [Document.fragments_of_next? (Statement.next?_of_directive hsettled hrun),
        ← Document.fragments_of_skipGap hu, hfragments]
      rfl

end TerminalConfig
