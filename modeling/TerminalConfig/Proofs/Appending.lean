import TerminalConfig.Proofs.Confined
import TerminalConfig.Proofs.FileTree
import TerminalConfig.Proofs.Renderable

/-! # Appending — all of an input map is written, or nothing is

    An input map is rendered first, then its path is looked at, then the file is
    opened, and only then anything is written.  So what goes wrong before the file
    is open leaves all files as they were, and where writing goes through to the
    end the file has all of the input map.

    * `DebugLog.Ends` — the ends of an attempt to write an input map, in that
      order;
    * `DebugLog.write_all_or_nothing` — on a host whose writes go through, the file
      has all of the input map behind what it held, or all files are as they were
      and a warning says what is in the way of opening it;
    * `DebugLog.writeOn_extends` — a write that ends early is reported as well, and
      leaves a part of the input map in the file and all other files as they were. -/

namespace TerminalConfig

namespace Host

variable {host : Host} {tree : FileTree} {s : Bytes}

/-- The system does not open a path: it denies it, or something is in the way. -/
def Refuses (host : Host) (tree : FileTree) (s : Bytes) (fault : FileFault) : Prop :=
  host.denial? tree s = some fault ∨ host.denial? tree s = none ∧ tree.Obstructs s fault

/-- Writes go through to the end. -/
def Lasts (host : Host) : Prop :=
  ∀ file added, host.stop? file added = none

theorem openToAppend_eq_error {fault : FileFault} :
    host.openToAppend tree s = .error fault ↔ host.Refuses tree s fault := by
  rw [openToAppend, Refuses]
  cases host.denial? tree s with
  | none => simp [FileTree.openToAppend_eq_error]
  | some denied => simp

/-- What is opened is the file at the place of the path. -/
theorem openToAppend_eq_ok {file : OpenFile} (h : host.openToAppend tree s = .ok file) :
    ∃ hopens : tree.Opens s, file = tree.openAt (tree.placeOf s) hopens.accepts := by
  rw [openToAppend] at h
  split at h
  · cases h
  · exact FileTree.openToAppend_eq_ok h

end Host

namespace DebugLog

open FileTree

/-! ## What is added -/

/-- What is added for entries with the names of the catalogs is ASCII, so the file
    gets it as it is. -/
theorem encodeEscaped?_block {entries : List Entry} {lines : List Text}
    (hnamed : ∀ e ∈ entries, e.Named) (h : Render.inputMap entries = .ok lines) :
    Utf8.encodeEscaped? (Render.unlines ("-- input map" :: lines))
      = some (Utf8.encodeAll (Render.unlines ("-- input map" :: lines))) := by
  have hheading : ∀ c ∈ Text.ofString "-- input map", ¬ c.isSurrogate := by decide
  have hlines : ∀ line ∈ lines, ∀ c ∈ line, ¬ c.isSurrogate := by
    intro line hline c hc
    obtain ⟨w, hprints⟩ := Render.exists_prints_inputMap hnamed h line hline
    have hrange := hprints.range c hc
    simp only [CodePoint.isSurrogate, Bool.and_eq_true, decide_eq_true_eq]
    omega
  refine Utf8.encodeEscaped?_of_chars fun c hc => ?_
  obtain ⟨line, hline, hc⟩ := List.mem_flatMap.mp hc
  rcases List.mem_append.mp hc with hc | hc
  · exact List.forall_mem_cons.mpr ⟨hheading, hlines⟩ line hline c hc
  · rw [List.mem_singleton.mp hc]
    decide

/-- The files after are those before, but for the one at a place, which has something
    added to what it held. -/
structure Extends (before after : FileTree) (place : Place) (former added : Bytes) : Prop where
  held : before.node? place = some (.file former) ∨ before.node? place = none ∧ former = []
  there : after.node? place = some (.file (former ++ added))
  others : ∀ other, other ≠ place → after.node? other = before.node? other

/-- The file of the debug log has the lines of the input map, under their heading,
    behind what it held, and every other file is as it was. -/
def Adds (c : Config) (before after : FileTree) : Prop :=
  ∃ path s place former lines added,
    c.debugLog = some path ∧ Path.bytes path = .ok s ∧
    before.walk (before.origin s) (Path.route s) = .ok place ∧
    Render.inputMap c.inputMap = .ok lines ∧
    Utf8.encodeEscaped? (Render.unlines ("-- input map" :: lines)) = some added ∧
    Extends before after place former added ∧
    after.read s = .ok (former ++ added)

/-- What is added to an open file is all that changes. -/
theorem extends_append {tree : FileTree} {place : Place} (h : tree.Accepts place) (added : Bytes) :
    Extends tree ((tree.openAt place h).append added) place (tree.contentsAt place) added where
  held := node?_of_accepts h
  there := OpenFile.node?_append_openAt h added
  others := fun _ hne => OpenFile.node?_append_openAt_of_ne h added hne

/-! ## What is reported -/

/-- The record is a warning about the debug log at a path. -/
structure Warns (path reason : Text) (record : LogRecord) : Prop where
  level : record.level = .warning
  origin : record.origin = .debugLog
  text : record.text = "cannot write debug log " ++ path ++ ": " ++ reason

theorem warns_iff {path reason : Text} {record : LogRecord} :
    Warns path reason record ↔ record = unwritable path reason := by
  constructor
  · rintro ⟨hlevel, horigin, htext⟩
    cases record
    cases hlevel
    cases horigin
    cases htext
    rfl
  · rintro rfl
    exact ⟨rfl, rfl, rfl⟩

/-! ## What an attempt comes to -/

/-- The ends of an attempt to write the input map of a configuration, each with what
    leads to it. -/
inductive Ends (host : Host) (tree : FileTree) (c : Config) : Outcome → Prop
  | absent (hlog : c.debugLog = none) : Ends host tree c { tree, written := .ok false }
  | raised {path : Text} (fault : Fault) (hlog : c.debugLog = some path)
      (h : ¬ (Succeeds (Render.inputMap c.inputMap) ∧ Succeeds (Path.bytes path))) :
      Ends host tree c { tree, written := .error fault }
  | unopened {path : Text} {lines : List Text} {s : Bytes} {fault : FileFault}
      (hlog : c.debugLog = some path) (hlines : Render.inputMap c.inputMap = .ok lines)
      (hpath : Path.bytes path = .ok s) (hopening : host.openToAppend tree s = .error fault) :
      Ends host tree c
        { tree, written := .ok false, log := [unwritable path (fault.message path)] }
  | opened {path : Text} {lines : List Text} {s : Bytes} {file : OpenFile}
      (hlog : c.debugLog = some path) (hlines : Render.inputMap c.inputMap = .ok lines)
      (hpath : Path.bytes path = .ok s) (hopening : host.openToAppend tree s = .ok file) :
      Ends host tree c
        (add host path file (Utf8.encodeAll (Render.unlines ("-- input map" :: lines))))

/-- The input map is rendered first, then the path is looked at, then the file is
    opened; only after that anything is put in it. -/
theorem ends_writeOn (host : Host) (tree : FileTree) (c : Config) :
    Ends host tree c (writeOn host tree c) := by
  rw [writeOn]
  cases hlog : c.debugLog with
  | none => exact .absent hlog
  | some path =>
      dsimp only
      cases hlines : Render.inputMap c.inputMap with
      | error fault =>
          have hblock : block c.inputMap = .error fault := by
            rw [block, hlines]
            rfl
          rw [hblock]
          refine .raised _ hlog fun h => ?_
          rw [hlines] at h
          exact not_succeeds_error fault h.1
      | ok lines =>
          have hblock : block c.inputMap = .ok (Render.unlines ("-- input map" :: lines)) := by
            rw [block, hlines]
            rfl
          rw [hblock]
          dsimp only
          cases hpath : Path.bytes path with
          | error fault =>
              refine .raised _ hlog fun h => ?_
              rw [hpath] at h
              exact not_succeeds_error fault h.2
          | ok s =>
              dsimp only
              cases hopening : host.openToAppend tree s with
              | error fault => exact .unopened hlog hlines hpath hopening
              | ok file => exact .opened hlog hlines hpath hopening

section

variable {host : Host} {tree : FileTree} {c : Config} {outcome : Outcome}
  (h : Ends host tree c outcome)

include h

/-- Every report is a warning about the path of the debug log. -/
theorem Ends.warns : ∀ record ∈ outcome.log, ∃ path ∈ c.debugLog, ∃ reason,
    Warns path reason record := by
  cases h with
  | absent => exact fun _ hrecord => absurd hrecord List.not_mem_nil
  | raised => exact fun _ hrecord => absurd hrecord List.not_mem_nil
  | unopened hlog =>
      exact List.forall_mem_singleton.mpr ⟨_, hlog, _, warns_iff.mpr rfl⟩
  | opened hlog =>
      rw [add]
      split
      · exact fun _ hrecord => absurd hrecord List.not_mem_nil
      · exact List.forall_mem_singleton.mpr ⟨_, hlog, _, warns_iff.mpr rfl⟩

/-- There is one report at most. -/
theorem Ends.length_log_le : outcome.log.length ≤ 1 := by
  cases h with
  | absent => exact Nat.zero_le 1
  | raised => exact Nat.zero_le 1
  | unopened => exact Nat.le_refl 1
  | opened =>
      rw [add]
      split
      · exact Nat.zero_le 1
      · exact Nat.le_refl 1

/-- All files are as they were, or the file of the debug log has got a part of the
    lines of the input map. -/
theorem Ends.extends : outcome.tree = tree ∨ ∃ path s former lines part,
    c.debugLog = some path ∧ Path.bytes path = .ok s ∧ Render.inputMap c.inputMap = .ok lines ∧
    part <+: Utf8.encodeAll (Render.unlines ("-- input map" :: lines)) ∧
    Extends tree outcome.tree (tree.placeOf s) former part := by
  cases h with
  | absent => exact .inl rfl
  | raised => exact .inl rfl
  | unopened => exact .inl rfl
  | @opened path lines s file hlog hlines hpath hopening =>
      obtain ⟨hopens, rfl⟩ := Host.openToAppend_eq_ok hopening
      refine .inr ⟨path, s, tree.contentsAt (tree.placeOf s), lines, ?_⟩
      rw [add]
      split
      · exact ⟨_, hlog, hpath, hlines, List.prefix_rfl, extends_append hopens.accepts _⟩
      · exact ⟨_, hlog, hpath, hlines, List.take_prefix _ _, extends_append hopens.accepts _⟩

end

/-- Whatever the system refuses, only the file of the debug log changes: it gets a
    part of the lines of the input map.  What is refused is reported once, as a
    warning. -/
theorem writeOn_extends (host : Host) (tree : FileTree) (c : Config) :
    ((writeOn host tree c).tree = tree ∨ ∃ path s former lines part,
      c.debugLog = some path ∧ Path.bytes path = .ok s ∧
      Render.inputMap c.inputMap = .ok lines ∧
      part <+: Utf8.encodeAll (Render.unlines ("-- input map" :: lines)) ∧
      Extends tree (writeOn host tree c).tree (tree.placeOf s) former part) ∧
    (writeOn host tree c).log.length ≤ 1 ∧
    ∀ record ∈ (writeOn host tree c).log, ∃ path ∈ c.debugLog, ∃ reason,
      Warns path reason record :=
  have h := ends_writeOn host tree c
  ⟨h.extends, h.length_log_le, h.warns⟩

/-! ## Writes that go through -/

section

variable {host : Host} {tree : FileTree} {c : Config} {outcome : Outcome}
  (hlasts : host.Lasts) (h : Ends host tree c outcome)

include hlasts

/-- What an open file gets is all of it. -/
theorem add_of_lasts (path : Text) (file : OpenFile) (added : Bytes) :
    add host path file added = { tree := file.append added, written := .ok true } := by
  rw [add, hlasts file added]

include h

/-- What is written is all that there is to write. -/
theorem Ends.adds (hnamed : ∀ e ∈ c.inputMap, e.Named) (hwritten : outcome.written = .ok true) :
    Adds c tree outcome.tree ∧ outcome.log = [] := by
  cases h with
  | absent => cases hwritten
  | raised => cases hwritten
  | unopened => cases hwritten
  | @opened path lines s file hlog hlines hpath hopening =>
      obtain ⟨hopens, rfl⟩ := Host.openToAppend_eq_ok hopening
      rw [add_of_lasts hlasts]
      refine ⟨⟨path, s, _, _, lines, _, hlog, hpath, walk_eq_ok.mpr ⟨hopens.passes, rfl⟩, hlines,
        encodeEscaped?_block hnamed hlines, extends_append hopens.accepts _, ?_⟩, rfl⟩
      exact read_put (hopens.put _) _

/-- Without that, all files are as they were. -/
theorem Ends.keeps (hwritten : outcome.written ≠ .ok true) : outcome.tree = tree := by
  cases h with
  | absent => rfl
  | raised => rfl
  | unopened => rfl
  | opened =>
      rw [add_of_lasts hlasts] at hwritten
      exact absurd rfl hwritten

theorem Ends.absent_iff :
    outcome.written = .ok false ∧ outcome.log = [] ↔ c.debugLog = none := by
  cases h with
  | absent hlog => exact iff_of_true ⟨rfl, rfl⟩ hlog
  | raised _ hlog => exact iff_of_false (fun h => nomatch h.1) (hlog ▸ Option.some_ne_none _)
  | unopened hlog => exact iff_of_false (fun h => nomatch h.2) (hlog ▸ Option.some_ne_none _)
  | opened hlog =>
      rw [add_of_lasts hlasts]
      exact iff_of_false (fun h => nomatch h.1) (hlog ▸ Option.some_ne_none _)

theorem Ends.unopened_iff (record : LogRecord) :
    outcome.written = .ok false ∧ outcome.log = [record] ↔
      ∃ path s fault, c.debugLog = some path ∧ Succeeds (Render.inputMap c.inputMap) ∧
        Path.bytes path = .ok s ∧ host.Refuses tree s fault ∧
        Warns path (fault.message path) record := by
  cases h with
  | absent hlog =>
      refine iff_of_false (fun h => nomatch h.2) ?_
      rintro ⟨path, s, fault, hlog', -⟩
      cases hlog.symm.trans hlog'
  | raised _ hlog hraises =>
      refine iff_of_false (fun h => nomatch h.1) ?_
      rintro ⟨path, s, fault, hlog', hrenders, hpath, -⟩
      cases hlog.symm.trans hlog'
      exact hraises ⟨hrenders, s, hpath⟩
  | unopened hlog hlines hpath hopening =>
      constructor
      · rintro ⟨-, hrecord⟩
        exact ⟨_, _, _, hlog, ⟨_, hlines⟩, hpath, Host.openToAppend_eq_error.mp hopening,
          warns_iff.mpr (List.singleton_inj.mp hrecord).symm⟩
      · rintro ⟨path, s, fault, hlog', -, hpath', hrefuses, hwarns⟩
        cases hlog.symm.trans hlog'
        cases hpath.symm.trans hpath'
        cases hopening.symm.trans (Host.openToAppend_eq_error.mpr hrefuses)
        exact ⟨rfl, congrArg (fun r => [r]) (warns_iff.mp hwarns).symm⟩
  | opened hlog _ hpath hopening =>
      rw [add_of_lasts hlasts]
      refine iff_of_false (fun h => nomatch h.1) ?_
      rintro ⟨path, s, fault, hlog', -, hpath', hrefuses, -⟩
      cases hlog.symm.trans hlog'
      cases hpath.symm.trans hpath'
      cases hopening.symm.trans (Host.openToAppend_eq_error.mpr hrefuses)

end

/-- An attempt adds all of the input map to the file of the debug log, or leaves all
    files as they were; it is `false` without a report when there is no debug log, and
    with one warning when the system does not open its path. -/
structure AllOrNothing (host : Host) (tree : FileTree) (c : Config) (outcome : Outcome) :
    Prop where
  adds : outcome.written = .ok true → Adds c tree outcome.tree ∧ outcome.log = []
  keeps : outcome.written ≠ .ok true → outcome.tree = tree
  absent : outcome.written = .ok false ∧ outcome.log = [] ↔ c.debugLog = none
  unopened : ∀ record, outcome.written = .ok false ∧ outcome.log = [record] ↔
    ∃ path s fault, c.debugLog = some path ∧ Succeeds (Render.inputMap c.inputMap) ∧
      Path.bytes path = .ok s ∧ host.Refuses tree s fault ∧
      Warns path (fault.message path) record
  reports : outcome.log.length ≤ 1
  raises : (∃ fault, outcome.written = .error fault) ↔
    ∃ path ∈ c.debugLog, ¬ (Succeeds (Render.inputMap c.inputMap) ∧ path.NamesFile)

/-- Writing an input map with the names of the catalogs is all or nothing, whatever
    the files are, where writes go through to the end. -/
theorem write_all_or_nothing {host : Host} (hlasts : host.Lasts) (tree : FileTree) {c : Config}
    (hnamed : ∀ e ∈ c.inputMap, e.Named) :
    AllOrNothing host tree c (writeOn host tree c) := by
  have h := ends_writeOn host tree c
  have hraises : (∃ fault, (writeOn host tree c).written = .error fault) ↔
      ∃ path ∈ c.debugLog, ¬ (Succeeds (Render.inputMap c.inputMap) ∧ path.NamesFile) := by
    rw [exists_error_iff, succeeds_writeOn]
    simp only [not_forall, exists_prop]
  exact
    { adds := h.adds hlasts hnamed
      keeps := h.keeps hlasts
      absent := h.absent_iff hlasts
      unopened := h.unopened_iff hlasts
      reports := h.length_log_le
      raises := hraises }

/-- A configuration with one entry, logging to a path. -/
def oneKey (path : Text) : Config where
  debugLog := some path
  inputMap := [⟨none, [0x0E, 0x48], ⟨⟨"KUp", none⟩, []⟩⟩]

/-- A directory with a file in it, beside the one that is worked in. -/
def keptTree : FileTree where
  nodes := [([asciiBytes "home"], .directory), ([asciiBytes "logs"], .directory),
    ([asciiBytes "logs", asciiBytes "map"], .file (asciiBytes "-- kept\n"))]
  workingDirectory := [asciiBytes "home"]

/-- A host that denies every path. -/
def strictHost : Host where
  denial? := fun _ _ => some .denied

/-- The file has the lines behind its own, on a path from the root and on one out of
    the working directory; what is no directory, or is not there, and what is
    denied, keeps all as it was. -/
theorem oneKey_all_or_nothing :
    Adds (oneKey "/logs/map") keptTree (write keptTree (oneKey "/logs/map")).tree ∧
      Adds (oneKey "../logs/map") keptTree (write keptTree (oneKey "../logs/map")).tree ∧
      (write keptTree (oneKey "/logs/map/x")).tree = keptTree ∧
      (write keptTree (oneKey "/logs/map/x")).log
        = [unwritable "/logs/map/x" (FileFault.notDirectory.message "/logs/map/x")] ∧
      (write keptTree (oneKey "logs/map")).tree = keptTree ∧
      (write keptTree (oneKey "logs/map")).log
        = [unwritable "logs/map" (FileFault.missing.message "logs/map")] ∧
      (writeOn strictHost keptTree (oneKey "/logs/map")).tree = keptTree ∧
      (writeOn strictHost keptTree (oneKey "/logs/map")).log
        = [unwritable "/logs/map" (FileFault.denied.message "/logs/map")] := by
  have hnamed : ∀ path, ∀ e ∈ (oneKey path).inputMap, e.Named := fun _ =>
    List.forall_mem_singleton.mpr ⟨⟨none, by decide⟩, by decide⟩
  have hrenders : ∀ path, Succeeds (Render.inputMap (oneKey path).inputMap) := fun _ =>
    ⟨_, rfl⟩
  have hdefault : ∀ path, AllOrNothing {} keptTree (oneKey path) (write keptTree (oneKey path)) :=
    fun path => write_all_or_nothing (fun _ _ => rfl) keptTree (hnamed path)
  have hstrict : AllOrNothing strictHost keptTree (oneKey "/logs/map")
      (writeOn strictHost keptTree (oneKey "/logs/map")) :=
    write_all_or_nothing (fun _ _ => rfl) keptTree (hnamed "/logs/map")
  -- what is in the way is found by opening the path
  have hrefuses : ∀ {s fault}, keptTree.openToAppend s = .error fault →
      Host.Refuses {} keptTree s fault := fun h => .inr ⟨rfl, openToAppend_eq_error.mp h⟩
  obtain ⟨hfile, hfileLog⟩ := ((hdefault "/logs/map/x").unopened _).mpr
    ⟨_, asciiBytes "/logs/map/x", .notDirectory, rfl, hrenders _, by decide,
      hrefuses rfl, warns_iff.mpr rfl⟩
  obtain ⟨hnone, hnoneLog⟩ := ((hdefault "logs/map").unopened _).mpr
    ⟨_, asciiBytes "logs/map", .missing, rfl, hrenders _, by decide,
      hrefuses rfl, warns_iff.mpr rfl⟩
  obtain ⟨hdenied, hdeniedLog⟩ := (hstrict.unopened _).mpr
    ⟨_, asciiBytes "/logs/map", .denied, rfl, hrenders _, by decide, .inl rfl, warns_iff.mpr rfl⟩
  refine ⟨((hdefault _).adds rfl).1, ((hdefault _).adds rfl).1, (hdefault _).keeps ?_, hfileLog,
    (hdefault _).keeps ?_, hnoneLog, hstrict.keeps ?_, hdeniedLog⟩
  · rw [hfile]
    nofun
  · rw [hnone]
    nofun
  · rw [hdenied]
    nofun

end DebugLog

end TerminalConfig
