import TerminalConfig.Proofs.Attempts
import TerminalConfig.Proofs.Lines

/-! # The round trip — a rendered configuration reads back

    A configuration that holds only what the language can say is rendered, and
    its rendering says its debug log and its input map again, in order
    (`config_reads_back`).  The other scalars are rendered as comments and are
    not read.

    The rendering is a list of lines, each of which is a comment or is read as
    its directive, so the lines are read one by one (`fragments_append_unlines`). -/

namespace TerminalConfig

/-! ## Lines for all values -/

/-- A number that is not too long is rendered on one line. -/
theorem exists_number {n : Int} (h : HasNumeral n) :
    ∃ t, Render.number n = .ok t ∧ OneLine t := by
  rw [Render.number, if_pos (show n.natAbs < decimalLimit maxDecimalDigits from h)]
  refine ⟨_, rfl, ?_⟩
  refine OneLine.append ?_ (prints_decimal _).oneLine
  split
  · exact oneLine_ofString (by decide)
  · exact fun _ hc => absurd hc List.not_mem_nil

/-- A value on one line gives a comment. -/
theorem exists_remark {name : String} (hname : name.toList.all isPrintableChar)
    {value : Except RenderFault Text} (h : ∃ t, value = .ok t ∧ OneLine t) :
    ∃ line, Render.remark name value = .ok line ∧ OneLine line ∧ IsRemark line := by
  obtain ⟨t, rfl, ht⟩ := h
  have hrest : OneLine (Text.ofString " " ++ Text.ofString name ++ Text.ofString " = " ++ t) :=
    (((oneLine_ofString (by decide)).append (oneLine_ofString hname)).append
      (oneLine_ofString (by decide))).append ht
  have hline : Text.ofString "-- " ++ Text.ofString name ++ Text.ofString " = " ++ t
      = "--" ++ (Text.ofString " " ++ Text.ofString name ++ Text.ofString " = " ++ t) := by
    simp only [show Text.ofString "-- " = Text.ofString "--" ++ Text.ofString " " from rfl,
      List.append_assoc]
  refine ⟨_, rfl, ?_, ?_⟩
  · rw [hline]
    exact (oneLine_ofString (by decide)).append hrest
  · rw [hline]
    exact isRemark_of_oneLine hrest

/-- The scalars without a directive are rendered as comments. -/
theorem exists_remarks {c : Config} (h : c.ScalarsFit) :
    ∃ lines, (Render.remarks c).mapM id = .ok lines ∧
      ∀ line ∈ lines, OneLine line ∧ IsRemark line := by
  have htruth : ∀ b, ∃ t, (.ok (Render.truth b) : Except RenderFault Text) = .ok t ∧ OneLine t := by
    intro b
    cases b
    · exact ⟨_, rfl, oneLine_ofString (by decide)⟩
    · exact ⟨_, rfl, oneLine_ofString (by decide)⟩
  have hremark : ∀ a ∈ Render.remarks c,
      ∃ line, id a = .ok line ∧ OneLine line ∧ IsRemark line := by
    intro a ha
    simp only [Render.remarks, List.mem_filterMap, List.mem_cons, List.not_mem_nil, or_false, id,
      exists_eq_right, eq_comm (b := Option.map _ _), Option.map_eq_some_iff] at ha
    rcases ha with ⟨n, hn, rfl⟩ | ⟨n, hn, rfl⟩ | ⟨b, hb, rfl⟩ | ⟨b, hb, rfl⟩ | ⟨n, hn, rfl⟩ |
      ⟨n, hn, rfl⟩ | ⟨t, ht, rfl⟩
    · exact exists_remark (by decide) (exists_number (h.vmin n hn))
    · exact exists_remark (by decide) (exists_number (h.vtime n hn))
    · exact exists_remark (by decide) (htruth b)
    · exact exists_remark (by decide) (htruth b)
    · exact exists_remark (by decide) (exists_number (h.inputFd n hn))
    · exact exists_remark (by decide) (exists_number (h.outputFd n hn))
    · exact exists_remark (by decide) ⟨_, rfl, t.isPrintable_quoted.oneLine⟩
  obtain ⟨lines, hlines, hall⟩ := exists_mapM hremark
  exact ⟨lines, hlines, forall_of_forall₂ hall⟩

/-- What holds of each directive's line holds of the lines of a list. -/
theorem exists_directives {α : Type} {render : α → Except RenderFault Text} {d : α → Directive}
    {as : List α}
    (h : ∀ a ∈ as, ∃ line w tokens, render a = .ok line ∧ Prints line w ∧ Writes w tokens ∧
      (d a).Spells tokens) :
    ∃ lines, as.mapM render = .ok lines ∧ (∀ line ∈ lines, OneLine line) ∧
      LinesSay lines (as.map d) := by
  have hline : ∀ a ∈ as, ∃ line, render a = .ok line ∧ OneLine line ∧ Says line (d a) := by
    intro a ha
    obtain ⟨line, w, tokens, hrender, hprints, hwrites, hspells⟩ := h a ha
    exact ⟨line, hrender, hprints.oneLine, says_of_writes hprints hwrites hspells⟩
  obtain ⟨lines, hlines, hall⟩ := exists_mapM hline
  refine ⟨lines, hlines, forall_of_forall₂ (hall.imp fun _ _ h => h.1), ?_⟩
  refine linesSay_directives ?_
  rw [List.forall₂_map_right_iff]
  exact (hall.imp fun _ _ h => h.2).flip

/-- A configuration is rendered as lines that say its debug log and then its
    entries. -/
theorem exists_lines {c : Config} (h : c.Catalogued) :
    ∃ lines, Render.lines c = .ok lines ∧ (∀ line ∈ lines, OneLine line) ∧
      LinesSay lines (c.debugLog.toList.map .debugLog ++ c.inputMap.map .map) := by
  obtain ⟨scalars, hscalars, hremarks⟩ := exists_remarks h.toScalarsFit
  obtain ⟨log, hlog, honeLine, hlogSays⟩ := exists_directives (d := Directive.debugLog)
    (fun path hpath => exists_debugLog (h.debugLog path (Option.mem_toList.mp hpath)))
  obtain ⟨entries, hentries, honeLine', hentriesSay⟩ := exists_directives (d := Directive.map)
    (fun e he => exists_entry (h.entries e he))
  refine ⟨scalars ++ log ++ entries, ?_, ?_, ?_⟩
  · simp only [Render.lines, Render.inputMap, hscalars, hlog, hentries]
    rfl
  · intro line hline
    rcases List.mem_append.mp hline with hline | hline
    · rcases List.mem_append.mp hline with hline | hline
      · exact (hremarks line hline).1
      · exact honeLine line hline
    · exact honeLine' line hline
  · have hsay := (linesSay_remarks fun line hline => (hremarks line hline).2).append hlogSays
    exact hsay.append hentriesSay

/-! ## The whole configuration -/

/-- Lines without surrogates make a text without surrogates. -/
theorem not_isSurrogate_unlines {lines : List Text} (h : ∀ line ∈ lines, OneLine line) :
    ∀ c ∈ Render.unlines lines, ¬ c.isSurrogate := by
  intro c hc
  obtain ⟨line, hline, hmem⟩ := List.mem_flatMap.mp hc
  rcases List.mem_append.mp hmem with hmem | hmem
  · exact (h line hline c hmem).1
  · rw [List.mem_singleton.mp hmem]
    decide

/-- Entries add up to their list. -/
theorem mergeAll_entries (entries : List Entry) :
    Config.mergeAll ((entries.map Directive.map).map Directive.fragment)
      = { inputMap := entries } := by
  induction entries with
  | nil => rfl
  | cons e entries ih =>
      rw [List.map_cons, List.map_cons, Config.mergeAll_cons, ih]
      rfl

theorem mergeAll_debugLog (path : Option Text) :
    Config.mergeAll ((path.toList.map Directive.debugLog).map Directive.fragment)
      = { debugLog := path } := by
  cases path <;> rfl

/-- A configuration that the language can write down is rendered, and what its
    rendering says is its debug log and its input map. -/
theorem config_reads_back {c : Config} (h : c.Catalogued) :
    ∃ t, Render.config c = .ok t ∧ ∀ source : Text,
      (Document.read source (Source.text t).buffer).value
        = { debugLog := c.debugLog, inputMap := c.inputMap } := by
  obtain ⟨lines, hlines, honeLine, hsay⟩ := exists_lines h
  refine ⟨Render.unlines lines, ?_, ?_⟩
  · simp only [Render.config, hlines]
    rfl
  · intro source
    -- nothing stands behind the lines, and an empty text is a gap that closes
    have hfragments := (fragments_append_unlines hsay skipGap_nil).2
    rw [List.append_nil, Document.fragments_eq_nil.mpr skipGap_nil, List.append_nil] at hfragments
    show Document.config _ = _
    rw [buffer_text (not_isSurrogate_unlines honeLine), Document.config, hfragments,
      List.map_append, Config.mergeAll_append, mergeAll_debugLog, mergeAll_entries]
    simp [Config.merge]

/-- A configuration whose parts all need some care: escapes that would fuse, a
    character beyond the bytes, a byte that is no character, a repeated modifier
    and a name that would leave its comment. -/
def delicateConfig : Config where
  vmin := some (-1)
  debugLog := some (Utf8.decodeEscaped [0xFF, 0x22, 0x0A])
  termName := some "x\n-\x7d\ndebugLog \"/x\""
  inputMap :=
    [ ⟨none, [0x0E, 0x48, 0x80, 0x31], ⟨⟨"KChar", some (.char ⟨0x1F600, by decide⟩)⟩,
        [⟨"MAlt"⟩, ⟨"MAlt"⟩]⟩⟩,
      ⟨some (Utf8.decodeEscaped [0xC3, 0xA9]), [], ⟨⟨"KFun", some (.int 12)⟩, []⟩⟩ ]

/-- It reads back all the same. -/
theorem delicateConfig_reads_back :
    ∃ t, Render.config delicateConfig = .ok t ∧ ∀ source : Text,
      (Document.read source (Source.text t).buffer).value
        = { debugLog := delicateConfig.debugLog, inputMap := delicateConfig.inputMap } := by
  have hnone : ∀ n : Int, n ∈ none → HasNumeral n := fun n hn => absurd hn (Option.not_mem_none n)
  have hchar : (delicateConfig.inputMap[0]).Catalogued :=
    { term := fun t ht => absurd ht (Option.not_mem_none t)
      key := ⟨some .char, by decide, .char (by decide)⟩
      modifiers := by decide
      fits := Key.numberFits_char }
  have hint : (delicateConfig.inputMap[1]).Catalogued :=
    { term := fun _ ht => ⟨_, (Option.some.inj ht).symm⟩
      key := ⟨some .int, by decide, .int 12⟩
      modifiers := by decide
      fits := Key.numberFits_int.mpr (lt_decimalLimit (by decide) (by decide)) }
  have hone : HasNumeral (-1) := lt_decimalLimit (by decide) (by decide)
  refine config_reads_back
    { vmin := ?_
      vtime := hnone
      inputFd := hnone
      outputFd := hnone
      entries := List.forall_mem_cons.mpr ⟨hchar, List.forall_mem_singleton.mpr hint⟩
      debugLog := fun _ ht => ⟨_, (Option.some.inj ht).symm⟩ }
  rintro _ ⟨⟩
  exact hone

end TerminalConfig
