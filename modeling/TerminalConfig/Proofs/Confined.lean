import TerminalConfig.Proofs.Renderable

/-! # Confined values — no value leaves its line

    A configuration need not come from a source: its texts may hold newlines,
    quotes and escape sequences, its characters may be surrogates and its numbers
    negative.  As long as the names of keys and modifiers are those of the
    catalogs, what is rendered has one line for each value that is present, and
    nothing in a line can end it or steer a terminal (`Render.config_confined`).

    Three writers see to that, each for the values it is given: directives are
    printable ASCII (`Prints`), whatever bytes and characters stand in their
    literals, and comments are printable (`Text.IsPrintable`), since the only text
    in them is quoted. -/

namespace TerminalConfig

/-- A control character: below the space, or from the delete character up to
    `0x9F`. -/
def CodePoint.IsControl (c : CodePoint) : Prop :=
  c.val < 0x20 ∨ 0x7F ≤ c.val ∧ c.val ≤ 0x9F

/-- The names in the entry are those of the catalogs.  Its terminal, its bytes and
    its payload may be anything. -/
structure Entry.Named (e : Entry) : Prop where
  key : ∃ kind, (e.event.key.name, kind) ∈ Key.catalog
  modifiers : ∀ m ∈ e.event.modifiers, m.name ∈ Modifier.catalog

/-- A printable text has no control character. -/
theorem Text.IsPrintable.not_isControl {t : Text} (h : t.IsPrintable) : ∀ c ∈ t, ¬ c.IsControl := by
  intro c hc hcontrol
  have hrange := CodePoint.range_of_isPrintable (h c hc)
  rw [CodePoint.IsControl] at hcontrol
  omega

/-- A printed text lies between the space and the tilde. -/
theorem Prints.range {t : Text} {w : Bytes} (h : Prints t w) :
    ∀ c ∈ t, 0x20 ≤ c.val ∧ c.val ≤ 0x7E := by
  intro c hc
  rw [h.text_eq] at hc
  obtain ⟨b, hb, rfl⟩ := List.mem_map.mp hc
  have hrange := toNat_of_isPrintableAscii (h.printable b hb)
  rw [CodePoint.val_ofByte]
  omega

/-! ## What the writers print -/

namespace Render

/-- A number is printed, whatever its sign. -/
theorem exists_prints_number {n : Int} {line : Text} (h : number n = .ok line) :
    ∃ w, Prints line w := by
  rw [number] at h
  split at h
  · cases h
    split
    · exact ⟨_, (Prints.ofString (by decide)).append (prints_decimal _)⟩
    · exact ⟨_, prints_decimal _⟩
  · cases h

/-- A text is printed as the literal of its bytes, whatever they are. -/
theorem exists_prints_text {t line : Text} (h : text t = .ok line) : ∃ w, Prints line w := by
  rw [text] at h
  split at h
  · next s _ =>
    cases h
    obtain ⟨w, hprints, -⟩ := exists_string s
    exact ⟨w, hprints⟩
  · cases h

/-- A character literal is printed, also that of a surrogate: from `0x100` on it
    is a number. -/
theorem exists_prints_charLiteral (c : CodePoint) : ∃ w, Prints (charLiteral c) w := by
  by_cases hc : c.isSurrogate
  · have hwide : ¬ c.val ≤ 0xFF := by
      simp only [CodePoint.isSurrogate, Bool.and_eq_true, decide_eq_true_eq] at hc
      omega
    rw [charLiteral, if_neg hwide]
    have hopen : Prints (Text.ofString "\x27\\") [apostrophe, backslash] :=
      Prints.ofString (by decide)
    have hclose : Prints (Text.ofString "\x27") [apostrophe] := Prints.ofString (by decide)
    exact ⟨_, (hopen.append (prints_decimal c.val)).append hclose⟩
  · obtain ⟨w, hprints, -⟩ := exists_char hc
    exact ⟨w, hprints⟩

/-- A key of the catalog is printed with any payload. -/
theorem exists_prints_key {k : Key} {line : Text} (hname : ∃ kind, (k.name, kind) ∈ Key.catalog)
    (h : key k = .ok line) : ∃ w, Prints line w := by
  obtain ⟨kind, hmem⟩ := hname
  obtain ⟨hprints, -⟩ := exists_word (isWord_key hmem)
  rw [key] at h
  split at h
  · cases h
    exact ⟨_, hprints⟩
  · next c _ =>
    cases h
    obtain ⟨w, hchar⟩ := exists_prints_charLiteral c
    exact ⟨_, hprints.space hchar⟩
  · obtain ⟨digits, hdigits, h⟩ := bind_eq_ok.mp h
    cases h
    obtain ⟨w, hnumber⟩ := exists_prints_number hdigits
    exact ⟨_, hprints.space hnumber⟩

/-- An entry with the names of the catalogs is printed. -/
theorem exists_prints_entry {e : Entry} {line : Text} (hnamed : e.Named) (h : entry e = .ok line) :
    ∃ w, Prints line w := by
  obtain ⟨term, hterm, h⟩ := bind_eq_ok.mp h
  obtain ⟨event, hevent, h⟩ := bind_eq_ok.mp h
  obtain ⟨key, hkey, hmodifiers⟩ := bind_eq_ok.mp hevent
  cases hmodifiers
  cases h
  have htermPrints : ∃ w, Prints term w := by
    cases he : e.term with
    | none =>
        rw [he] at hterm
        cases hterm
        exact ⟨_, Prints.ofString (by decide)⟩
    | some t =>
        rw [he] at hterm
        exact exists_prints_text hterm
  obtain ⟨w, hw⟩ := htermPrints
  obtain ⟨data, hdata, -⟩ := exists_string e.data
  obtain ⟨keyBytes, hkeyPrints⟩ := exists_prints_key hnamed.key hkey
  obtain ⟨list, -, hlist, -⟩ := exists_modifiers hnamed.modifiers
  have hmap : Prints (Text.ofString "map ") (asciiBytes "map ") := Prints.ofString (by decide)
  exact ⟨_, ((hmap.append hw).space hdata).space (hkeyPrints.space hlist)⟩

/-- So are the entries of an input map. -/
theorem exists_prints_inputMap {entries : List Entry} {lines : List Text}
    (hnamed : ∀ e ∈ entries, e.Named) (h : inputMap entries = .ok lines) :
    ∀ line ∈ lines, ∃ w, Prints line w := by
  have hlines := (List.forall₂_and_left _ _).mpr ⟨hnamed, mapM_eq_ok.mp h⟩
  refine forall_of_forall₂ (hlines.imp ?_)
  rintro e line ⟨he, hline⟩
  exact exists_prints_entry he hline

theorem exists_prints_debugLog {path line : Text} (h : debugLog path = .ok line) :
    ∃ w, Prints line w := by
  obtain ⟨literal, hliteral, h⟩ := bind_eq_ok.mp h
  cases h
  obtain ⟨w, hprints⟩ := exists_prints_text hliteral
  exact ⟨_, (Prints.ofString (by decide)).append hprints⟩

end Render

/-! ## Scalars -/

/-- The value of a scalar that has no directive. -/
inductive Scalar
  | number (n : Int)
  | truth (b : Bool)
  | text (t : Text)

/-- A scalar as its comment tells it. -/
def Scalar.render : Scalar → Except RenderFault Text
  | number n => Render.number n
  | truth b => .ok (Render.truth b)
  | text t => .ok t.quoted

/-- The scalars without a directive that are present, under their names, in the
    order of their lines. -/
def Config.scalars (c : Config) : List (String × Scalar) :=
  [ c.vmin.map fun n => ("vmin", .number n),
    c.vtime.map fun n => ("vtime", .number n),
    c.mouseMode.map fun b => ("mouse_mode", .truth b),
    c.bracketedPasteMode.map fun b => ("bracketed_paste_mode", .truth b),
    c.inputFd.map fun n => ("input_fd", .number n),
    c.outputFd.map fun n => ("output_fd", .number n),
    c.termName.map fun t => ("term_name", .text t) ].filterMap id

/-- Each of them has its comment. -/
theorem Render.remarks_eq (c : Config) :
    remarks c = c.scalars.map fun scalar => remark scalar.1 scalar.2.render := by
  have hmap : ∀ (f : String × Scalar → Except RenderFault Text) (l : List (Option (String × Scalar))),
      (l.filterMap id).map f = (l.map (Option.map f)).filterMap id := by
    intro f l
    rw [List.map_filterMap, List.filterMap_map]
    rfl
  rw [remarks, Config.scalars, hmap]
  simp only [List.map_cons, List.map_nil, Option.map_map]
  rfl

/-- A scalar is told in printable characters. -/
theorem Scalar.isPrintable_render {scalar : Scalar} {value : Text}
    (h : scalar.render = .ok value) : value.IsPrintable := by
  cases scalar with
  | number n =>
      obtain ⟨w, hprints⟩ := Render.exists_prints_number h
      exact hprints.isPrintable
  | truth b =>
      cases h
      cases b
      · exact Text.isPrintable_ofString (by decide)
      · exact Text.isPrintable_ofString (by decide)
  | text t =>
      cases h
      exact t.isPrintable_quoted

/-- The names of the scalars are printable. -/
theorem Config.isPrintable_name {c : Config} {scalar : String × Scalar} (h : scalar ∈ c.scalars) :
    Text.IsPrintable scalar.1 := by
  have hnames : ∀ name ∈ ["vmin", "vtime", "mouse_mode", "bracketed_paste_mode", "input_fd",
      "output_fd", "term_name"], name.toList.all isPrintableChar := by decide
  refine Text.isPrintable_ofString (hnames _ ?_)
  simp only [scalars, List.mem_filterMap, List.mem_cons, List.not_mem_nil, or_false, id,
    exists_eq_right, eq_comm (b := Option.map _ _), Option.map_eq_some_iff] at h
  rcases h with ⟨_, -, rfl⟩ | ⟨_, -, rfl⟩ | ⟨_, -, rfl⟩ | ⟨_, -, rfl⟩ | ⟨_, -, rfl⟩ | ⟨_, -, rfl⟩ |
    ⟨_, -, rfl⟩ <;> simp

/-! ## Lines -/

/-- Lines without newlines are what a text of lines splits into, with nothing
    behind the last newline. -/
theorem splitOn_unlines {lines : List Text} (h : ∀ line ∈ lines, OneLine line) :
    (Render.unlines lines).splitOn (.ofChar '\n') = lines ++ [[]] := by
  induction lines with
  | nil => exact List.splitOn_nil _
  | cons line lines ih =>
      have hline : CodePoint.ofChar '\n' ∉ line :=
        fun hmem => (h line List.mem_cons_self _ hmem).2 rfl
      have hcons : Render.unlines (line :: lines)
          = line ++ CodePoint.ofChar '\n' :: Render.unlines lines := by
        rw [Render.unlines, List.flatMap_cons, List.append_assoc]
        rfl
      rw [hcons, List.splitOn_append_cons_self_of_not_mem hline,
        ih fun l hl => h l (List.mem_cons_of_mem line hl)]
      rfl

/-- The text is made of these lines: one for each scalar, the debug log and each
    entry, none of them broken or with a control character in it. -/
structure Config.Confines (c : Config) (t : Text) (scalars log entries : List Text) : Prop where
  text_eq : t = Render.unlines (scalars ++ log ++ entries)
  splits : t.splitOn (.ofChar '\n') = scalars ++ log ++ entries ++ [[]]
  control : ∀ line ∈ scalars ++ log ++ entries, ∀ x ∈ line, ¬ CodePoint.IsControl x
  directives : ∀ line ∈ log ++ entries, ∀ x ∈ line, 0x20 ≤ x.val ∧ x.val ≤ 0x7E
  scalars : List.Forall₂ (fun scalar line => ∃ value, scalar.2.render = .ok value ∧
    line = Text.ofString "-- " ++ Text.ofString scalar.1 ++ Text.ofString " = " ++ value)
    c.scalars scalars
  log : List.Forall₂ (fun path line => Render.debugLog path = .ok line) c.debugLog.toList log
  entries : List.Forall₂ (fun e line => Render.entry e = .ok line) c.inputMap entries

/-- The comments are one for each scalar. -/
theorem Config.forall₂_remarks {c : Config} {lines : List Text}
    (h : (Render.remarks c).mapM id = .ok lines) :
    List.Forall₂ (fun scalar line => ∃ value, scalar.2.render = .ok value ∧
      line = Text.ofString "-- " ++ Text.ofString scalar.1 ++ Text.ofString " = " ++ value)
      c.scalars lines := by
  rw [Render.remarks_eq, mapM_eq_ok, List.forall₂_map_left_iff] at h
  refine h.imp ?_
  intro scalar line hline
  obtain ⟨value, hvalue, hline⟩ := bind_eq_ok.mp hline
  cases hline
  exact ⟨value, hvalue, rfl⟩

/-- A configuration with the names of the catalogs that is rendered at all keeps
    each of its values on the line of that value. -/
theorem Render.config_confined {c : Config} {t : Text} (hnamed : ∀ e ∈ c.inputMap, e.Named)
    (h : config c = .ok t) : ∃ scalars log entries, c.Confines t scalars log entries := by
  obtain ⟨all, hall, ht⟩ := bind_eq_ok.mp h
  obtain ⟨scalars, hscalars, hall⟩ := bind_eq_ok.mp hall
  obtain ⟨log, hlog, hall⟩ := bind_eq_ok.mp hall
  obtain ⟨entries, hentries, hall⟩ := bind_eq_ok.mp hall
  cases hall
  cases ht
  have hscalars' := Config.forall₂_remarks hscalars
  have hlog' := mapM_eq_ok.mp hlog
  have hentries' := mapM_eq_ok.mp hentries
  have hremarks : ∀ line ∈ scalars, line.IsPrintable := by
    refine forall_of_forall₂ (((List.forall₂_and_left _ _).mpr ⟨fun _ hs => hs, hscalars'⟩).imp ?_)
    rintro scalar line ⟨hmem, value, hvalue, rfl⟩
    have hdashes : Text.IsPrintable "-- " := Text.isPrintable_ofString (by decide)
    have hequals : Text.IsPrintable " = " := Text.isPrintable_ofString (by decide)
    exact ((hdashes.append (Config.isPrintable_name hmem)).append hequals).append
      (Scalar.isPrintable_render hvalue)
  have hprints : ∀ line ∈ log ++ entries, ∃ w, Prints line w := by
    refine List.forall_mem_append.mpr ⟨?_, ?_⟩
    · exact forall_of_forall₂ (hlog'.imp fun _ _ => exists_prints_debugLog)
    · exact exists_prints_inputMap hnamed hentries
  have hprintable : ∀ line ∈ scalars ++ log ++ entries, line.IsPrintable := by
    rw [List.append_assoc]
    refine List.forall_mem_append.mpr ⟨hremarks, ?_⟩
    intro line hline
    obtain ⟨w, hw⟩ := hprints line hline
    exact hw.isPrintable
  refine ⟨scalars, log, entries, rfl, ?_, ?_, ?_, hscalars', hlog', hentries'⟩
  · exact splitOn_unlines fun line hline => (hprintable line hline).oneLine
  · exact fun line hline => (hprintable line hline).not_isControl
  · intro line hline
    obtain ⟨w, hw⟩ := hprints line hline
    exact hw.range

/-- A configuration of what would end a line or steer a terminal: newlines, quotes,
    an escape character and a surrogate, in texts, bytes and a payload. -/
def hostileConfig : Config where
  vmin := some (-1)
  debugLog := some "/a\n-- b\"\x1b[2J"
  termName := some (Text.ofString "x\n'\"\x1b]0;" ++ [⟨0xDC80, by decide⟩, ⟨0x9B, by decide⟩])
  inputMap :=
    [ ⟨some "\n", [0x0A, 0x22, 0x5C, 0x1B, 0x9B], ⟨⟨"KChar", some (.char ⟨0xDFFF, by decide⟩)⟩,
        [⟨"MAlt"⟩]⟩⟩,
      ⟨none, [], ⟨⟨"KEsc", some (.int (-2))⟩, []⟩⟩ ]

/-- It is rendered on five lines. -/
theorem hostileConfig_confined :
    ∃ t scalars log entries, hostileConfig.Confines t scalars log entries ∧
      (scalars ++ log ++ entries).length = 5 := by
  have hone : ∀ n ∈ hostileConfig.vmin, HasNumeral n := by
    intro n hn
    rw [← Option.some.inj hn]
    exact lt_decimalLimit (by decide) (by decide)
  have hnone : ∀ n : Int, n ∈ none → HasNumeral n := fun n hn => absurd hn (Option.not_mem_none n)
  have hpath : ∀ path ∈ hostileConfig.debugLog, path.IsEscapable := by
    intro path hpath
    rw [← Option.some.inj hpath]
    unfold Text.IsEscapable CodePoint.IsEscapable
    decide
  have hentries : ∀ e ∈ hostileConfig.inputMap,
      (∀ t ∈ e.term, t.IsEscapable) ∧ e.event.key.NumberFits := by
    refine List.forall_mem_cons.mpr ⟨⟨?_, ?_⟩, List.forall_mem_singleton.mpr ⟨?_, ?_⟩⟩
    · intro t ht
      rw [← Option.some.inj ht]
      unfold Text.IsEscapable CodePoint.IsEscapable
      decide
    · intro n hn
      cases hn
    · exact fun t ht => absurd ht (Option.not_mem_none t)
    · intro n hn
      cases hn
      exact lt_decimalLimit (by decide) (by decide)
  have hrenders : Succeeds (Render.config hostileConfig) :=
    Render.succeeds_config.mpr ⟨⟨hone, hnone, hnone, hnone⟩, hpath, hentries⟩
  obtain ⟨t, ht⟩ := hrenders
  have hnamed : ∀ e ∈ hostileConfig.inputMap, e.Named :=
    List.forall_mem_cons.mpr ⟨⟨⟨some .char, by decide⟩, by decide⟩,
      List.forall_mem_singleton.mpr ⟨⟨none, by decide⟩, by decide⟩⟩
  obtain ⟨scalars, log, entries, h⟩ := Render.config_confined hnamed ht
  refine ⟨t, scalars, log, entries, h, ?_⟩
  rw [List.length_append, List.length_append, ← h.scalars.length_eq, ← h.log.length_eq,
    ← h.entries.length_eq]
  rfl

end TerminalConfig
