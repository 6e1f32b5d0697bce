import TerminalConfig.Proofs.Effective
import TerminalConfig.Proofs.Renderable

/-! # The fixed point — what is printed is printed again

    A run that succeeds prints a text that says all the run came to: given a file
    that holds it, a run on that file prints the same text
    (`CommandLine.output_is_fixed`).

    * What a rendering says is the debug log and the entries, the debug log as the
      text that its bytes stand for: a path from an environment may spell these
      bytes in another way, but it is rendered by them (`Render.config_reread`,
      `Render.reads_back`).
    * Sources say a debug log and declared entries and nothing else
      (`Config.IsSpoken`), so all that is rendered as a comment comes from the
      baseline, and the baseline comes from the environment alone.
    * So the second run comes to the same configuration as the first one, but for
      the spelling of the debug log (`CommandLine.reread_of_gather`). -/

namespace TerminalConfig

/-! ## What a rendering says -/

/-- The text that the bytes of a text stand for; a text without bytes stays as it
    is. -/
def Text.reread (t : Text) : Text :=
  match Utf8.encodeEscaped? t with
  | some s => Utf8.decodeEscaped s
  | none => t

theorem Text.IsEscapable.standsForBytes {t : Text} (h : t.IsEscapable) :
    t.reread.StandsForBytes := by
  obtain ⟨s, hs⟩ := Utf8.exists_encodeEscaped?.mpr h
  refine ⟨s, ?_⟩
  rw [Text.reread, hs]

/-- Both spellings are rendered by their bytes. -/
theorem Render.text_reread (t : Text) : text t.reread = text t := by
  cases hs : Utf8.encodeEscaped? t with
  | none => rw [Text.reread, hs]
  | some s => rw [Text.reread, hs, text, text, hs, Utf8.encodeEscaped?_decodeEscaped]

/-- The configuration with its debug log as the bytes of it are read. -/
def Config.reread (c : Config) : Config :=
  { c with debugLog := c.debugLog.map Text.reread }

/-- It is rendered as the configuration is. -/
theorem Render.config_reread (c : Config) : config c.reread = config c := by
  have hlog : (c.debugLog.map Text.reread).toList.mapM debugLog = c.debugLog.toList.mapM debugLog := by
    cases c.debugLog with
    | none => rfl
    | some path =>
        show [path.reread].mapM debugLog = [path].mapM debugLog
        rw [List.mapM_cons, List.mapM_cons, debugLog, debugLog, text_reread]
  have hlines : lines c.reread = lines c := by
    show (do
      let scalars ← (remarks c).mapM id
      let log ← (c.debugLog.map Text.reread).toList.mapM debugLog
      let entries ← inputMap c.inputMap
      return scalars ++ log ++ entries) = lines c
    rw [hlog]
    rfl
  rw [config, config, hlines]

/-- What can be rendered can be written, once its debug log is spelled by its
    bytes. -/
theorem Config.catalogued_reread {c : Config} (hentries : ∀ e ∈ c.inputMap, e.Declared)
    (h : Succeeds (Render.config c)) : c.reread.Catalogued := by
  obtain ⟨hscalars, hlog, hmap⟩ := Render.succeeds_config.mp h
  refine { hscalars with
    entries := fun e he => { hentries e he with fits := (hmap e he).2 }
    debugLog := ?_ }
  rintro t ht
  obtain ⟨path, hpath, rfl⟩ := Option.map_eq_some_iff.mp (Option.mem_def.mp ht)
  exact (hlog path hpath).standsForBytes

/-- What lines say that say a debug log and entries. -/
theorem Document.config_unlines {lines : List Text} {path : Option Text} {entries : List Entry}
    (h : LinesSay lines (path.toList.map .debugLog ++ entries.map .map)) :
    Document.config (Utf8.encodeAll (Render.unlines lines))
      = { debugLog := path, inputMap := entries } := by
  have hfragments := (fragments_append_unlines h skipGap_nil).2
  rw [List.append_nil, Document.fragments_eq_nil.mpr skipGap_nil, List.append_nil] at hfragments
  rw [Document.config, hfragments, List.map_append, Config.mergeAll_append, mergeAll_debugLog,
    mergeAll_entries]
  simp [Config.merge]

/-- A rendering has no surrogates, and what it says is the debug log, as its bytes
    are read, and the entries. -/
theorem Render.reads_back {c : Config} {t : Text} (hentries : ∀ e ∈ c.inputMap, e.Declared)
    (h : config c = .ok t) :
    t.IsChars ∧ Document.config (Utf8.encodeAll t)
      = { debugLog := c.debugLog.map Text.reread, inputMap := c.inputMap } := by
  obtain ⟨ls, hls, honeLine, hsay⟩ :=
    exists_lines (Config.catalogued_reread hentries ⟨t, h⟩)
  rw [← config_reread, config, hls] at h
  cases h
  exact ⟨not_isSurrogate_unlines honeLine, Document.config_unlines hsay⟩

/-! ## What sources say -/

namespace Config

/-- The configuration says a debug log and declared entries, and nothing else. -/
inductive IsSpoken : Config → Prop
  | intro {debugLog : Option Text} {inputMap : List Entry} : (∀ e ∈ inputMap, e.Declared) →
      IsSpoken { debugLog, inputMap }

theorem isSpoken_empty : IsSpoken empty :=
  .intro fun _ he => absurd he List.not_mem_nil

theorem IsSpoken.merge {c d : Config} (h : c.IsSpoken) (h' : d.IsSpoken) :
    (c.merge d).IsSpoken := by
  cases h with
  | intro hc =>
      cases h' with
      | intro hd => exact .intro (List.forall_mem_append.mpr ⟨hc, hd⟩)

theorem isSpoken_mergeAll {cs : List Config} (h : ∀ c ∈ cs, c.IsSpoken) :
    (mergeAll cs).IsSpoken := by
  induction cs with
  | nil => exact isSpoken_empty
  | cons c cs ih =>
      rw [mergeAll_cons]
      exact (h c List.mem_cons_self).merge (ih fun d hd => h d (List.mem_cons_of_mem c hd))

theorem isSpoken_document (s : Bytes) : (Document.config s).IsSpoken := by
  have hsound := (Document.sound_config s).entries
  rw [Document.config_eq] at hsound ⊢
  exact .intro hsound

end Config

namespace Session

variable (session : Session)

/-- A sequence gives a value when both of its parts do. -/
theorem value_bind_eq_ok {α β : Type} {x : Loading α} {next : α → Loading β} {b : β} :
    (x >>= next).run.value = .ok b ↔
      ∃ a, x.run.value = .ok a ∧ (next a).run.value = .ok b := by
  rw [value_bind]
  cases x.run.value with
  | ok a => simp
  | error fault => simp

theorem isSpoken_file {path : Text} {c : Config} (h : (session.file path).run.value = .ok c) :
    c.IsSpoken := by
  rw [file] at h
  split at h
  · cases h
  · split at h
    · cases h
      exact Config.isSpoken_empty
    · cases h
      exact Config.isSpoken_document _

theorem isSpoken_files {paths : List Text} {cs : List Config}
    (h : (paths.mapM fun path => session.file (Path.normalize path)).run.value = .ok cs) :
    ∀ c ∈ cs, c.IsSpoken := by
  induction paths generalizing cs with
  | nil =>
      cases h
      exact fun _ hc => absurd hc List.not_mem_nil
  | cons path paths ih =>
      rw [List.mapM_cons] at h
      obtain ⟨c, hc, h⟩ := value_bind_eq_ok.mp h
      obtain ⟨ds, hds, h⟩ := value_bind_eq_ok.mp h
      cases h
      exact List.forall_mem_cons.mpr ⟨session.isSpoken_file hc, ih hds⟩

theorem isSpoken_named {cs : List Config} (h : session.named.run.value = .ok cs) :
    ∀ c ∈ cs, c.IsSpoken := by
  rw [named_eq] at h
  split at h
  · obtain ⟨c, hc, h⟩ := value_bind_eq_ok.mp h
    cases h
    exact List.forall_mem_singleton.mpr (session.isSpoken_file hc)
  · cases h
    exact fun _ hc => absurd hc List.not_mem_nil

theorem isSpoken_user {c : Config} (h : session.user.run.value = .ok c) : c.IsSpoken := by
  rw [user] at h
  obtain ⟨path, -, h⟩ := value_bind_eq_ok.mp h
  obtain ⟨own, hown, h⟩ := value_bind_eq_ok.mp h
  obtain ⟨named, hnamed, h⟩ := value_bind_eq_ok.mp h
  cases h
  have hoverrides : session.overrides.IsSpoken :=
    .intro fun _ he => absurd he List.not_mem_nil
  refine Config.isSpoken_mergeAll (List.forall_mem_append.mpr ⟨?_, ?_⟩)
  · exact List.forall_mem_cons.mpr ⟨session.isSpoken_file hown, session.isSpoken_named hnamed⟩
  · exact List.forall_mem_singleton.mpr hoverrides

/-- At the path is a file with these contents. -/
def HasFile (path : Text) (contents : Bytes) : Prop :=
  ∃ s, Path.bytes (Path.normalize path) = .ok s ∧ session.disk.read s = .ok contents

/-- A file says what its contents do; its path is in normal form from the first
    time on. -/
theorem value_file_of_hasFile {path : Text} {contents : Bytes} (h : session.HasFile path contents) :
    (session.file (Path.normalize path)).run.value = .ok (Document.config contents) := by
  obtain ⟨s, hs, hread⟩ := h
  rw [file, Path.normalize_normalize, hs]
  dsimp only
  rw [hread]
  rfl

end Session

/-! ## Runs -/

namespace CommandLine

/-- What is put in front of the sources. -/
def ground (session : Session) (standardIo : Bool) : Except SessionFault Config :=
  if standardIo then session.baseline else .ok .empty

/-- The ground depends on the environment alone. -/
theorem ground_congr {session later : Session} (h : later.environment = session.environment)
    (standardIo : Bool) : ground later standardIo = ground session standardIo := by
  have hsetting : later.setting? Session.termVariable = session.setting? Session.termVariable := by
    rw [Session.setting?, Session.setting?, h]
  rw [ground, ground, Session.baseline, Session.baseline, hsetting]

/-- The ground has no debug log and no entries. -/
theorem ground_eq_ok {session : Session} {standardIo : Bool} {base : Config}
    (h : ground session standardIo = .ok base) : base.debugLog = none ∧ base.inputMap = [] := by
  rw [ground] at h
  split at h
  · rw [Session.baseline_eq] at h
    split at h
    · cases h
      exact ⟨rfl, rfl⟩
    · cases h
  · cases h
    exact ⟨rfl, rfl⟩

/-- A run comes to what its sources say, on its ground. -/
theorem value_gather_eq_ok {session : Session} {invocation : Invocation} {c : Config} :
    (gather session invocation).run.value = .ok c ↔
      ∃ said base, (sources session invocation.paths).run.value = .ok said ∧
        ground session invocation.standardIo = .ok base ∧ c = base.merge said := by
  rw [gather, Session.value_bind_eq_ok, ground]
  refine exists_congr fun said => ?_
  split
  · rw [Session.value_bind_eq_ok]
    constructor
    · rintro ⟨hsaid, base, hbase, hc⟩
      cases hc
      exact ⟨base, hsaid, hbase, rfl⟩
    · rintro ⟨base, hsaid, hbase, rfl⟩
      exact ⟨hsaid, base, hbase, rfl⟩
  · constructor
    · rintro ⟨hsaid, hc⟩
      cases hc
      exact ⟨.empty, hsaid, rfl, (Config.empty_merge c).symm⟩
    · rintro ⟨base, hsaid, hbase, rfl⟩
      cases hbase
      rw [Config.empty_merge]
      exact ⟨hsaid, rfl⟩

/-- A run prints what it comes to. -/
theorem run_prints_iff {session : Session} {words : List Text} {invocation : Invocation}
    (hwords : Invocation.ofWords words = .ok invocation) {t : Text} :
    ((run session words).exit = .success ∧ (run session words).output = t) ↔
      ∃ c, (gather session invocation).run.value = .ok c ∧ Render.config c = .ok t := by
  rw [run, hwords]
  dsimp only
  cases (gather session invocation).run.value with
  | error fault => simp
  | ok c =>
      dsimp only
      cases hrender : Render.config c with
      | error fault => simp [hrender]
      | ok output => simp [hrender]

theorem isSpoken_sources {session : Session} {paths : List Text} {c : Config}
    (h : (sources session paths).run.value = .ok c) : c.IsSpoken := by
  cases paths with
  | nil => exact session.isSpoken_user h
  | cons path paths =>
      obtain ⟨cs, hcs, hc⟩ := Session.value_bind_eq_ok.mp h
      cases hc
      exact Config.isSpoken_mergeAll (session.isSpoken_files hcs)

/-- A single file is the only source. -/
theorem value_sources_of_hasFile {session : Session} {path : Text} {contents : Bytes}
    (h : session.HasFile path contents) :
    (sources session [path]).run.value = .ok (Document.config contents) := by
  refine Session.value_bind_eq_ok.mpr ⟨[Document.config contents], ?_, ?_⟩
  · rw [List.mapM_cons]
    exact Session.value_bind_eq_ok.mpr ⟨_, session.value_file_of_hasFile h, rfl⟩
  · rw [Config.mergeAll_cons, Config.mergeAll_nil, Config.merge_empty]
    rfl

/-- What a run comes to has declared entries, and what its rendering says, on the
    same ground, is the same but for the spelling of the debug log. -/
theorem reread_of_gather {session : Session} {invocation : Invocation} {c : Config}
    (h : (gather session invocation).run.value = .ok c) :
    (∀ e ∈ c.inputMap, e.Declared) ∧ ∃ base, ground session invocation.standardIo = .ok base ∧
      c.reread = base.merge { debugLog := c.debugLog.map Text.reread, inputMap := c.inputMap } := by
  obtain ⟨said, base, hsaid, hbase, rfl⟩ := value_gather_eq_ok.mp h
  obtain ⟨hlog, hentries⟩ := ground_eq_ok hbase
  cases isSpoken_sources hsaid with
  | intro hdeclared =>
      refine ⟨?_, base, hbase, ?_⟩
      · simpa [Config.merge, hentries] using hdeclared
      · simp [Config.reread, Config.merge, hlog, hentries]

/-- Any path can be asked for, behind the word that ends the options. -/
theorem ofWords_terminator (path : Text) (standardIo : Bool) :
    Invocation.ofWords ((if standardIo then [Text.ofString "--standard-io"] else [])
        ++ [Invocation.terminator, path])
      = .ok ⟨[path], standardIo, false⟩ := by
  cases standardIo <;> rfl

/-- What a run prints that succeeds is a text without surrogates, and it is what a
    run prints, in the same environment, on a file that holds it. -/
theorem output_is_fixed {session later : Session} {words again : List Text}
    {invocation : Invocation} {path : Text} {verbose : Bool}
    (hwords : Invocation.ofWords words = .ok invocation)
    (hsuccess : (run session words).exit = .success)
    (henvironment : later.environment = session.environment)
    (hfile : later.HasFile path (Utf8.encodeAll (run session words).output))
    (hagain : Invocation.ofWords again = .ok ⟨[path], invocation.standardIo, verbose⟩) :
    (run session words).output.IsChars ∧ (run later again).exit = .success ∧
      (run later again).output = (run session words).output := by
  obtain ⟨c, hc, hrender⟩ := (run_prints_iff hwords).mp ⟨hsuccess, rfl⟩
  obtain ⟨hdeclared, base, hbase, hreread⟩ := reread_of_gather hc
  obtain ⟨hchars, hread⟩ := Render.reads_back hdeclared hrender
  refine ⟨hchars, (run_prints_iff hagain).mpr ⟨c.reread, ?_, ?_⟩⟩
  · refine value_gather_eq_ok.mpr ⟨_, base, value_sources_of_hasFile hfile, ?_, ?_⟩
    · rw [ground_congr henvironment]
      exact hbase
    · rw [hread]
      exact hreread
  · rw [Render.config_reread]
    exact hrender

/-- A session whose own file spells its entry in other ways than a rendering does
    and has a line that says nothing, and whose environment names the debug log. -/
def carelessSession : Session where
  disk := FileTree.disk {
    nodes := [([asciiBytes "own"], .file (asciiBytes
      "debugLog \"old\"\nmap  _ \"\\x41\" \x7b- five -\x7d KFun 0x5 [MAlt,MAlt]\nmap _\n"))] }
  environment := [(Session.termVariable, "vt"), (Session.debugLogVariable, "new")]
  paths := ⟨"own", "own", "legacy"⟩

/-- The same environment, where the only file holds what the run prints. -/
def tidySession : Session where
  disk := FileTree.disk {
    nodes := [([asciiBytes "printed"], .file (Utf8.encodeAll
      (run carelessSession ["--standard-io"]).output))] }
  environment := carelessSession.environment
  paths := carelessSession.paths

/-- Both print the settings of the terminal, the debug log and the entry. -/
theorem carelessSession_printed_again :
    (run tidySession ["--standard-io", "--", "./printed"]).exit = .success ∧
      (run tidySession ["--standard-io", "--", "./printed"]).output
        = "-- vmin = 1\n-- vtime = 100\n-- mouse_mode = False\n-- bracketed_paste_mode = False\n"
          ++ "-- input_fd = 0\n-- output_fd = 1\n-- term_name = 'vt'\ndebugLog \"new\"\n"
          ++ "map _ \"A\" KFun 5 [MAlt, MAlt]\n" := by
  have hprinted : (run carelessSession ["--standard-io"]).exit = .success ∧
      (run carelessSession ["--standard-io"]).output
        = "-- vmin = 1\n-- vtime = 100\n-- mouse_mode = False\n-- bracketed_paste_mode = False\n"
          ++ "-- input_fd = 0\n-- output_fd = 1\n-- term_name = 'vt'\ndebugLog \"new\"\n"
          ++ "map _ \"A\" KFun 5 [MAlt, MAlt]\n" := by
    decide +kernel
  have hfile : tidySession.HasFile "./printed"
      (Utf8.encodeAll (run carelessSession ["--standard-io"]).output) :=
    ⟨asciiBytes "printed", by decide, rfl⟩
  have hwords : Invocation.ofWords ["--standard-io"] = .ok ⟨[], true, false⟩ := by decide
  have hagain : Invocation.ofWords ["--standard-io", "--", "./printed"]
      = .ok ⟨["./printed"], true, false⟩ := ofWords_terminator "./printed" true
  have henvironment : tidySession.environment = carelessSession.environment := rfl
  obtain ⟨-, hexit, houtput⟩ := output_is_fixed hwords hprinted.1 henvironment hfile hagain
  exact ⟨hexit, houtput.trans hprinted.2⟩

end CommandLine

end TerminalConfig
