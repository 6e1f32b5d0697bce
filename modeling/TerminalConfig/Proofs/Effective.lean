import TerminalConfig.CommandLine
import TerminalConfig.Proofs.FileTree
import TerminalConfig.Proofs.Merging
import TerminalConfig.Proofs.Paths
import TerminalConfig.Proofs.Statements

/-! # Effective configuration — what a session comes to

    A document can set the debug log and add entries, and nothing else
    (`Document.config_eq`), so of all that a session knows:

    * the scalars of the baseline and the name of the terminal come from the
      environment alone;
    * the entries are those of the user's file and then those of the file that
      the environment names;
    * the debug log is the environment's, or else the last one of these files.

    `Session.effective` says this in one place, and both ways to a session's
    configuration give it exactly when two things hold (`Session.effective_iff`):

    * the system says whether the user's file is there, where it is asked
      (`Session.PathsAnswer`); an error that does not tell so is a fault;
    * the paths that are read can name files (`Session.PathsNameFiles`); a text
      that can name no file is a fault, where a file that is not there, or cannot
      be opened, says nothing.

    No file is changed on the way, since a session has its files for reading
    only. -/

namespace TerminalConfig

/-! ## What documents say -/

namespace Statement

/-- The entry that a statement adds. -/
def entry? : Statement → Option Entry
  | directive (.map e) => some e
  | _ => none

/-- The path that a statement gives to the debug log. -/
def debugLog? : Statement → Option Text
  | directive (.debugLog path) => some path
  | _ => none

/-- The entries that statements add, in order. -/
def entries (sts : List Statement) : List Entry :=
  sts.filterMap entry?

/-- The debug log that the last of the statements gives that give one. -/
def lastDebugLog? (sts : List Statement) : Option Text :=
  lastAnswer? debugLog? sts

theorem entries_cons (statement : Statement) (sts : List Statement) :
    entries (statement :: sts) = statement.entry?.toList ++ entries sts := by
  rw [entries, List.filterMap_cons]
  cases statement.entry? <;> rfl

/-- A statement adds its entry and its debug log, and nothing else. -/
theorem fragment_eq (statement : Statement) :
    statement.fragment
      = { inputMap := statement.entry?.toList, debugLog := statement.debugLog? } := by
  match statement with
  | skipped why => rfl
  | directive (.map e) => rfl
  | directive (.debugLog path) => rfl

/-- Statements add up to their entries and the last debug log. -/
theorem mergeAll_fragments (sts : List Statement) :
    Config.mergeAll (sts.map fragment)
      = { inputMap := entries sts, debugLog := lastDebugLog? sts } := by
  induction sts with
  | nil => rfl
  | cons statement sts ih =>
      rw [List.map_cons, Config.mergeAll_cons, ih, fragment_eq, entries_cons, lastDebugLog?,
        lastDebugLog?, lastAnswer?_cons]
      rfl

end Statement

/-- A document says its entries and its last debug log, and nothing else. -/
theorem Document.config_eq (s : Bytes) :
    config s = { inputMap := Statement.entries (statements s),
                 debugLog := Statement.lastDebugLog? (statements s) } :=
  Statement.mergeAll_fragments _

/-! ## What sessions know -/

namespace Session

variable (session : Session)

/-- A variable of the environment that is set to something. -/
def given? (name : String) : Option Text :=
  (session.setting? name).filter fun value => !value.isEmpty

/-- The statements of the file at a path; none where no file can be opened. -/
def statementsAt (path : Text) : List Statement :=
  match Path.bytes (Path.normalize path) with
  | .error _ => []
  | .ok s =>
      match session.disk.read s with
      | .error _ => []
      | .ok contents => Document.statements contents

/-- Something is at a path. -/
def IsThere (path : Text) : Prop :=
  ∃ s, Path.bytes path = .ok s ∧ session.disk.find s = .ok ()

instance (path : Text) : Decidable (session.IsThere path) :=
  match hpath : Path.bytes path with
  | .error _ => isFalse (by simp [IsThere, hpath])
  | .ok s => decidable_of_iff (session.disk.find s = .ok ()) (by simp [IsThere, hpath])

/-- The system says whether anything is at a path. -/
def Answers (path : Text) : Prop :=
  ∀ s, Path.bytes path = .ok s → ∀ fault, session.disk.find s = .error fault → fault.TellsAbsence

/-- The path that was used before counts: the standard one is in force, and nothing
    is there while something is at the earlier one. -/
structure LegacyCounts : Prop where
  standard : session.paths.current = session.paths.standard
  missing : ¬ session.IsThere session.paths.current
  legacy : session.IsThere session.paths.legacy

instance : Decidable session.LegacyCounts :=
  decidable_of_iff (session.paths.current = session.paths.standard ∧
      ¬ session.IsThere session.paths.current ∧ session.IsThere session.paths.legacy)
    ⟨fun h => ⟨h.1, h.2.1, h.2.2⟩, fun h => ⟨h.standard, h.missing, h.legacy⟩⟩

/-- The path of the user's file. -/
def ownPath : Text :=
  if session.LegacyCounts then session.paths.legacy else session.paths.current

/-- The statements of the user's file. -/
def ownStatements : List Statement :=
  session.statementsAt session.ownPath

/-- The statements of the file that the environment names, if it names one. -/
def namedStatements : List Statement :=
  (session.given? fileVariable).toList.flatMap session.statementsAt

/-- The configuration that a session comes to when the terminal has a name. -/
def effectiveFor (name : Text) : Config where
  vmin := some 1
  vtime := some 100
  mouseMode := some false
  bracketedPasteMode := some false
  inputFd := some 0
  outputFd := some 1
  termName := some name
  inputMap := Statement.entries session.ownStatements ++ Statement.entries session.namedStatements
  debugLog := session.setting? debugLogVariable <|>
    Statement.lastDebugLog? session.namedStatements <|>
    Statement.lastDebugLog? session.ownStatements

/-- What a session comes to. -/
def effective : Except SessionFault Config :=
  match session.given? termVariable with
  | none => .error .missingTerm
  | some name => .ok (session.effectiveFor name)

/-- The system answers where it is asked whether the user's file is there: at the
    path in force, and at the earlier one if that may count. -/
structure PathsAnswer : Prop where
  current : session.Answers session.paths.current
  legacy : session.paths.current = session.paths.standard →
    ¬ session.IsThere session.paths.current → session.Answers session.paths.legacy

/-- A tree of files always answers. -/
theorem PathsAnswer.of_tree {tree : FileTree} (h : session.disk = tree.disk) :
    session.PathsAnswer := by
  have hall : ∀ path, session.Answers path := by
    intro path s _ fault hfind
    have hfound : discard (tree.find s) = .error fault := by
      rw [h] at hfind
      exact hfind
    cases hnode : tree.find s with
    | error found =>
        rw [hnode] at hfound
        cases hfound
        exact FileTree.tellsAbsence_of_find hnode
    | ok node =>
        rw [hnode] at hfound
        cases hfound
  exact ⟨hall _, fun _ _ => hall _⟩

/-- The paths that a session reads can name files. -/
def PathsNameFiles : Prop :=
  session.ownPath.NamesFile ∧ ∀ path ∈ session.given? fileVariable, path.NamesFile

/-! ## The user's file -/

/-- What is said of a path if the system answers is whether something is there. -/
theorem isPresent_eq_ok {path : Text} (h : session.Answers path) :
    session.isPresent path = .ok (decide (session.IsThere path)) := by
  rw [isPresent]
  cases hpath : Path.bytes path with
  | error fault => simp [IsThere, hpath]
  | ok s =>
      dsimp only
      cases hfind : session.disk.find s with
      | ok _ => simp [IsThere, hpath, hfind]
      | error fault => simp [IsThere, hpath, hfind, h s hpath fault hfind]

/-- If the system does not answer, its error is the fault. -/
theorem isPresent_eq_error {path : Text} (h : ¬ session.Answers path) :
    ∃ fault, session.isPresent path = .error (.file path fault) := by
  simp only [Answers, not_forall] at h
  obtain ⟨s, hpath, fault, hfind, htells⟩ := h
  refine ⟨fault, ?_⟩
  rw [isPresent, hpath]
  dsimp only
  rw [hfind]
  exact if_neg htells

/-- The earlier path is the user's where it counts, and the one in force otherwise,
    if the system answers. -/
theorem userPath_eq_ok (h : session.PathsAnswer) : session.userPath = .ok session.ownPath := by
  have hcurrent := session.isPresent_eq_ok h.current
  rw [userPath, hcurrent]
  by_cases hthere : session.IsThere session.paths.current
  · have hcounts : ¬ session.LegacyCounts := fun hlegacy => hlegacy.missing hthere
    rw [ownPath, if_neg hcounts, decide_eq_true hthere]
    rfl
  · rw [decide_eq_false hthere]
    by_cases hstandard : session.paths.current = session.paths.standard
    · have hlegacy := session.isPresent_eq_ok (h.legacy hstandard hthere)
      have hcounts : session.LegacyCounts ↔ session.IsThere session.paths.legacy :=
        ⟨fun hlegacy => hlegacy.legacy, fun hlegacy => ⟨hstandard, hthere, hlegacy⟩⟩
      show (if session.paths.current ≠ session.paths.standard then _ else _) = _
      rw [if_neg (not_not_intro hstandard), hlegacy, ownPath]
      by_cases hearlier : session.IsThere session.paths.legacy
      · rw [if_pos (hcounts.mpr hearlier), decide_eq_true hearlier]
        rfl
      · rw [if_neg (mt hcounts.mp hearlier), decide_eq_false hearlier]
        rfl
    · have hcounts : ¬ session.LegacyCounts := fun hlegacy => hstandard hlegacy.standard
      rw [ownPath, if_neg hcounts]
      exact if_pos hstandard

/-- The user's path is a fault if the system does not answer. -/
theorem userPath_eq_error (h : ¬ session.PathsAnswer) :
    ∃ path fault, session.userPath = .error (.file path fault) := by
  by_cases hcurrent : session.Answers session.paths.current
  · -- the earlier path is asked for only when it may count
    obtain ⟨hstandard, hthere, hlegacy⟩ : session.paths.current = session.paths.standard ∧
        ¬ session.IsThere session.paths.current ∧ ¬ session.Answers session.paths.legacy := by
      by_contra hall
      refine h ⟨hcurrent, fun hstandard hthere => by_contra fun hlegacy => ?_⟩
      exact hall ⟨hstandard, hthere, hlegacy⟩
    obtain ⟨fault, hfault⟩ := session.isPresent_eq_error hlegacy
    refine ⟨session.paths.legacy, fault, ?_⟩
    rw [userPath, session.isPresent_eq_ok hcurrent, decide_eq_false hthere]
    show (if session.paths.current ≠ session.paths.standard then _ else _) = _
    rw [if_neg (not_not_intro hstandard), hfault]
    rfl
  · obtain ⟨fault, hfault⟩ := session.isPresent_eq_error hcurrent
    refine ⟨session.paths.current, fault, ?_⟩
    rw [userPath, hfault]
    rfl

/-- A directory that may not be searched does not tell what is in it. -/
example :
    Session.userPath ⟨⟨fun _ => .error .denied, fun _ => .error .denied⟩, [],
      ⟨"config", "config", "legacy"⟩⟩ = .error (.file "config" .denied) := by
  rfl

/-! ## Attempts that report -/

section Loading

variable {α β : Type}

theorem value_pure (a : α) : (pure a : Loading α).run.value = .ok a := by
  rw [ExceptT.run_pure, Logged.value_pure]

/-- An attempt that reports nothing. -/
theorem value_mk (x : Except SessionFault α) : (ExceptT.mk (pure x) : Loading α).run.value = x :=
  rfl

/-- A sequence gives the value of its last part, or the first fault. -/
theorem value_bind (x : Loading α) (next : α → Loading β) :
    (x >>= next).run.value =
      match x.run.value with
      | .ok a => (next a).run.value
      | .error fault => .error fault := by
  rw [ExceptT.run_bind, Logged.value_bind]
  cases x.run.value <;> rfl

theorem value_bind_of_ok {x : Loading α} {next : α → Loading β} {a : α}
    (h : x.run.value = .ok a) : (x >>= next).run.value = (next a).run.value := by
  rw [value_bind, h]

theorem value_bind_of_error {x : Loading α} {next : α → Loading β} {fault : SessionFault}
    (h : x.run.value = .error fault) : (x >>= next).run.value = .error fault := by
  rw [value_bind, h]

end Loading

/-! ## Reading the files -/

/-- A file whose path can name one says its statements. -/
theorem value_file {path : Text} (h : path.NamesFile) :
    (session.file path).run.value
      = .ok (.mergeAll ((session.statementsAt path).map Statement.fragment)) := by
  obtain ⟨s, hs⟩ := Path.exists_bytes_normalize.mpr h
  simp only [file, statementsAt, hs]
  cases session.disk.read s <;> rfl

/-- A path that can name no file is a fault. -/
theorem value_file_of_not {path : Text} (h : ¬ path.NamesFile) :
    ∃ fault, (session.file path).run.value = .error (.path fault) := by
  cases hs : Path.bytes (Path.normalize path) with
  | error fault =>
      refine ⟨fault, ?_⟩
      simp only [file, hs]
      rfl
  | ok s => exact absurd (Path.exists_bytes_normalize.mp ⟨s, hs⟩) h

theorem named_eq :
    session.named =
      match session.given? fileVariable with
      | some path => return [← session.file path]
      | none => return [] := by
  rw [named, given?]
  match session.setting? fileVariable with
  | none => rfl
  | some [] => rfl
  | some (c :: path) => rfl

/-- The file that the environment names says its statements, if there is one. -/
theorem value_named (h : ∀ path ∈ session.given? fileVariable, path.NamesFile) :
    ∃ cs, session.named.run.value = .ok cs ∧
      Config.mergeAll cs = .mergeAll (session.namedStatements.map Statement.fragment) := by
  rw [named_eq, namedStatements]
  cases hpath : session.given? fileVariable with
  | none => exact ⟨[], rfl, rfl⟩
  | some path =>
      refine ⟨[_], value_bind_of_ok (session.value_file (h path hpath)), ?_⟩
      rw [Option.toList_some, List.flatMap_singleton, Config.mergeAll_cons, Config.mergeAll_nil,
        Config.merge_empty]

/-- What the user's sources say, if the system answers and their paths can name
    files. -/
theorem value_user (hanswer : session.PathsAnswer) (h : session.PathsNameFiles) :
    session.user.run.value = .ok {
      inputMap := Statement.entries session.ownStatements
        ++ Statement.entries session.namedStatements
      debugLog := session.setting? debugLogVariable <|>
        Statement.lastDebugLog? session.namedStatements <|>
        Statement.lastDebugLog? session.ownStatements } := by
  obtain ⟨cs, hcs, hmerge⟩ := session.value_named h.2
  have hpath := (value_mk session.userPath).trans (session.userPath_eq_ok hanswer)
  have hall : ∀ own : Config, Config.mergeAll (own :: cs ++ [session.overrides])
      = (own.merge (.mergeAll cs)).merge session.overrides := by
    intro own
    rw [Config.mergeAll_append, Config.mergeAll_cons, Config.mergeAll_cons, Config.mergeAll_nil,
      Config.merge_empty]
  rw [user, value_bind_of_ok hpath, value_bind_of_ok (session.value_file h.1),
    value_bind_of_ok hcs, value_pure, hall, hmerge, Statement.mergeAll_fragments,
    Statement.mergeAll_fragments, ← ownStatements]
  simp [Config.merge, overrides]

/-- An error of the system is a fault of the user's sources, and so is a path that
    can name no file. -/
theorem value_user_of_not (h : ¬ (session.PathsAnswer ∧ session.PathsNameFiles)) :
    ∃ fault ≠ .missingTerm, session.user.run.value = .error fault := by
  by_cases hanswer : session.PathsAnswer
  · have hpath := (value_mk session.userPath).trans (session.userPath_eq_ok hanswer)
    rw [user, value_bind_of_ok hpath]
    by_cases hown : session.ownPath.NamesFile
    · obtain ⟨path, hgiven, hnot⟩ :
          ∃ path, session.given? fileVariable = some path ∧ ¬ path.NamesFile := by
        by_contra hall
        refine h ⟨hanswer, hown, fun path hgiven => by_contra fun hnot => ?_⟩
        exact hall ⟨path, hgiven, hnot⟩
      obtain ⟨fault, hfault⟩ := session.value_file_of_not hnot
      have hnamed : session.named.run.value = .error (.path fault) := by
        rw [named_eq, hgiven]
        exact value_bind_of_error hfault
      refine ⟨.path fault, nofun, ?_⟩
      rw [value_bind_of_ok (session.value_file hown)]
      exact value_bind_of_error hnamed
    · obtain ⟨fault, hfault⟩ := session.value_file_of_not hown
      exact ⟨.path fault, nofun, value_bind_of_error hfault⟩
  · obtain ⟨path, fault, hfault⟩ := session.userPath_eq_error hanswer
    refine ⟨.file path fault, nofun, ?_⟩
    rw [user]
    exact value_bind_of_error ((value_mk session.userPath).trans hfault)

/-! ## The two ways to a configuration -/

theorem baseline_eq :
    session.baseline =
      match session.given? termVariable with
      | some name => .ok { effectiveFor session name with inputMap := [], debugLog := none }
      | none => .error .missingTerm := by
  rw [baseline, given?]
  match session.setting? termVariable with
  | none => rfl
  | some [] => rfl
  | some (c :: name) => rfl

/-- The baseline in front of the user's sources, or the fault that there is
    none. -/
theorem effective_eq {c : Config} (hanswer : session.PathsAnswer)
    (hpaths : session.PathsNameFiles) (huser : session.user.run.value = .ok c) :
    session.effective = session.baseline.map (·.merge c) := by
  rw [session.value_user hanswer hpaths] at huser
  cases huser
  rw [effective, baseline_eq]
  cases session.given? termVariable with
  | none => rfl
  | some name => simp [Except.map, Config.merge, effectiveFor]

theorem value_load {c : Config} (huser : session.user.run.value = .ok c) :
    session.load.run.value = session.baseline.map (·.merge c) := by
  rw [load, value_bind]
  cases hbase : session.baseline with
  | error fault => rfl
  | ok base => exact value_bind_of_ok huser

theorem value_gather {c : Config} {verbose : Bool} (huser : session.user.run.value = .ok c) :
    (CommandLine.gather session ⟨[], true, verbose⟩).run.value
      = session.baseline.map (·.merge c) := by
  rw [CommandLine.gather, CommandLine.sources, value_bind_of_ok huser, if_pos rfl, value_bind]
  cases hbase : session.baseline <;> rfl

/-- A tree of files always answers.  If the system does, the user's file is the
    earlier one when that counts, and the one in force otherwise.  A session is
    loaded, and the command line gathers its standard sources, as `effective` says,
    exactly when the system answers and the paths that are read can name files. -/
theorem effective_iff (verbose : Bool) :
    (∀ tree : FileTree, session.disk = tree.disk → session.PathsAnswer) ∧
    (session.PathsAnswer →
      (session.LegacyCounts → session.userPath = .ok session.paths.legacy) ∧
      (¬ session.LegacyCounts → session.userPath = .ok session.paths.current)) ∧
    ((session.load.run.value = session.effective ∧
      (CommandLine.gather session ⟨[], true, verbose⟩).run.value = session.effective) ↔
        session.PathsAnswer ∧ session.PathsNameFiles) := by
  refine ⟨fun _ htree => .of_tree session htree, fun hanswer => ?_, ?_, ?_⟩
  · rw [session.userPath_eq_ok hanswer, ownPath]
    exact ⟨fun h => congrArg Except.ok (if_pos h), fun h => congrArg Except.ok (if_neg h)⟩
  · rintro ⟨-, hgather⟩
    by_contra hnot
    obtain ⟨fault, hfault, huser⟩ := session.value_user_of_not hnot
    -- the command line asks for the files first, so it ends with their fault
    have hgather' : (CommandLine.gather session ⟨[], true, verbose⟩).run.value = .error fault :=
      value_bind_of_error huser
    rw [hgather, effective] at hgather'
    split at hgather'
    · exact hfault (Except.error.inj hgather').symm
    · cases hgather'
  · rintro ⟨hanswer, hpaths⟩
    have huser := session.value_user hanswer hpaths
    rw [session.effective_eq hanswer hpaths huser]
    exact ⟨session.value_load huser, session.value_gather huser⟩

/-- A session without files, in an environment whose file no path can name. -/
def unnameable : Session where
  disk := FileTree.disk {}
  environment := [(termVariable, Text.ofString "t"), (fileVariable, [⟨0xD800, by decide⟩])]
  paths := ⟨Text.ofString "config", Text.ofString "config", Text.ofString "legacy"⟩

/-- Not every session comes to what it is to come to: a path that can name no file
    is a fault, where a file that cannot be opened says nothing. -/
theorem unnameable_not_effective :
    ¬ ∀ (session : Session) (verbose : Bool), session.load.run.value = session.effective ∧
      (CommandLine.gather session ⟨[], true, verbose⟩).run.value = session.effective := by
  intro h
  exact absurd (h unnameable false).1 (by decide +kernel)

end Session

end TerminalConfig
