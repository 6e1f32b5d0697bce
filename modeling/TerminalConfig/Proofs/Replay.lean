import TerminalConfig.DebugLog
import TerminalConfig.Proofs.FileTree
import TerminalConfig.Proofs.RoundTrip
import TerminalConfig.Session
import Mathlib.Data.List.Infix

/-! # Replay — a debug log reads back to all that was logged

    Input maps are added to the end of a file, each under a heading.  What one
    attempt adds are lines that say the entries of its map (`DebugLog.exists_block`),
    and lines that follow lines say the entries of both.  So a file that was empty,
    or was not there, says the entries of all input maps that were written to it,
    in order (`DebugLog.replays`).

    The invariant of a run of attempts is that the path can be opened and
    `DebugLog.Logs`: what is at the place of the file says the entries so far.  One
    attempt keeps both (`write_of_logs`). -/

namespace TerminalConfig

/-- Lines that follow lines are written behind them. -/
theorem encodeAll_unlines_append (lines more : List Text) :
    Utf8.encodeAll (Render.unlines (lines ++ more))
      = Utf8.encodeAll (Render.unlines lines) ++ Utf8.encodeAll (Render.unlines more) := by
  rw [Render.unlines, List.flatMap_append, Utf8.encodeAll_append, ← Render.unlines,
    ← Render.unlines]

namespace DebugLog

/-- The attempts to write the input maps of configurations, one after another. -/
def outcomes (tree : FileTree) : List Config → List Outcome
  | [] => []
  | c :: cs => write tree c :: outcomes (write tree c).tree cs

/-- The files that these attempts leave. -/
def treeAfter (tree : FileTree) (cs : List Config) : FileTree :=
  cs.foldl (fun tree c => (write tree c).tree) tree

/-- What is at the place are lines that say the entries; without any, nothing need
    be there. -/
def Logs (tree : FileTree) (place : Place) (entries : List Entry) : Prop :=
  tree.node? place = none ∧ entries = [] ∨
    ∃ lines, tree.node? place = some (.file (Utf8.encodeAll (Render.unlines lines))) ∧
      LinesSay lines (entries.map .map)

/-- Entries that the language can write down are rendered as lines that say them,
    under a heading that says nothing. -/
theorem exists_block {entries : List Entry} (h : ∀ e ∈ entries, e.Catalogued) :
    ∃ lines, block entries = .ok (Render.unlines lines) ∧ LinesSay lines (entries.map .map) := by
  obtain ⟨lines, hlines, -, hsay⟩ := exists_directives (d := Directive.map) fun e he =>
    exists_entry (h e he)
  have hheading : Text.ofString "-- input map" = "--" ++ Text.ofString " input map" := by decide
  refine ⟨Text.ofString "-- input map" :: lines, ?_, .remark ?_ hsay⟩
  · simp only [block, Render.inputMap, hlines]
    rfl
  · rw [hheading]
    exact isRemark_of_oneLine (oneLine_ofString (by decide))

variable {tree : FileTree} {path : Text} {s : Bytes} {c : Config} {entries : List Entry}

section Runs

variable (hpath : Path.bytes path = .ok s)

include hpath

/-- One attempt puts a file that says the entries so far and then those of the
    configuration, and the path can be opened again. -/
theorem write_of_logs (hopens : tree.Opens s) (hlogs : Logs tree (tree.placeOf s) entries)
    (hlog : c.debugLog = some path) (hentries : ∀ e ∈ c.inputMap, e.Catalogued) :
    ∃ after : FileTree, write tree c = { tree := after, written := .ok true } ∧
      after.Opens s ∧ after.workingDirectory = tree.workingDirectory ∧
      Logs after (tree.placeOf s) (entries ++ c.inputMap) ∧
      ∀ other, other ≠ tree.placeOf s → after.node? other = tree.node? other := by
  obtain ⟨added, hadded, hsay⟩ := exists_block hentries
  -- what was there before, as lines
  obtain ⟨former, hformer, hbefore⟩ : ∃ former,
      tree.contentsAt (tree.placeOf s) = Utf8.encodeAll (Render.unlines former) ∧
      LinesSay former (entries.map .map) := by
    rw [FileTree.contentsAt]
    rcases hlogs with ⟨hnone, rfl⟩ | ⟨lines, hfile, hlines⟩
    · exact ⟨[], by rw [hnone]; rfl, .nil⟩
    · exact ⟨lines, by rw [hfile], hlines⟩
  have hboth : LinesSay (former ++ added) ((entries ++ c.inputMap).map .map) := by
    rw [List.map_append]
    exact hbefore.append hsay
  have hopening := FileTree.openToAppend_of_opens hopens
  have hnode := OpenFile.node?_append_openAt hopens.accepts
    (Utf8.encodeAll (Render.unlines added))
  refine ⟨(tree.openAt _ hopens.accepts).append (Utf8.encodeAll (Render.unlines added)), ?_,
    (hopens.put _).put _, rfl, Or.inr ⟨former ++ added, ?_, hboth⟩,
    fun _ hne => OpenFile.node?_append_openAt_of_ne hopens.accepts _ hne⟩
  · simp only [write, writeOn, hlog, hadded, hpath, Host.openToAppend, hopening, add]
  · rw [encodeAll_unlines_append, ← hformer]
    exact hnode

/-- A run of attempts writes every input map, changes no other file, and leaves a
    file that says the entries of all of them. -/
theorem run_of_logs {cs : List Config} (hopens : tree.Opens s)
    (hlogs : Logs tree (tree.placeOf s) entries)
    (hcs : ∀ c ∈ cs, c.debugLog = some path ∧ ∀ e ∈ c.inputMap, e.Catalogued) :
    (outcomes tree cs).map (·.written) = cs.map (fun _ => .ok true) ∧
      (∀ place ≠ tree.placeOf s, (treeAfter tree cs).node? place = tree.node? place) ∧
      (treeAfter tree cs).Opens s ∧ (treeAfter tree cs).placeOf s = tree.placeOf s ∧
      Logs (treeAfter tree cs) (tree.placeOf s) (entries ++ cs.flatMap (·.inputMap)) := by
  induction cs generalizing tree entries with
  | nil =>
      refine ⟨rfl, fun _ _ => rfl, hopens, rfl, ?_⟩
      rw [List.flatMap_nil, List.append_nil]
      exact hlogs
  | cons c cs ih =>
      obtain ⟨⟨hlog, hentries⟩, hcs⟩ := List.forall_mem_cons.mp hcs
      obtain ⟨after, hwrite, hopens', hdirectory, hlogs', hothers⟩ :=
        write_of_logs hpath hopens hlogs hlog hentries
      have hplace : after.placeOf s = tree.placeOf s := by
        rw [FileTree.placeOf, FileTree.placeOf, FileTree.origin, FileTree.origin, hdirectory]
      rw [← hplace] at hlogs'
      obtain ⟨hwritten, hframe, hopens'', hplace', hlogs''⟩ := ih hopens' hlogs' hcs
      have hafter : treeAfter tree (c :: cs) = treeAfter after cs := by
        rw [treeAfter, List.foldl_cons, hwrite]
        rfl
      rw [hplace] at hframe hplace' hlogs''
      rw [hafter, List.flatMap_cons, ← List.append_assoc]
      refine ⟨?_, fun place hne => ?_, hopens'', hplace', hlogs''⟩
      · rw [outcomes, hwrite, List.map_cons, List.map_cons, hwritten]
      · rw [hframe place hne, hothers place hne]

/-- A file that says entries is read as them. -/
theorem file_of_logs {session : Session} (hplain : Path.IsPlain path)
    (hdisk : session.disk = tree.disk) (hopens : tree.Opens s)
    (hlogs : Logs tree (tree.placeOf s) entries) :
    (session.file path).run.value = .ok { inputMap := entries } := by
  have hread : session.disk.read s = tree.read s := by
    rw [hdisk]
    rfl
  have hfind := FileTree.find_eq hopens.nonempty hopens.passes
  rcases hlogs with ⟨hnone, rfl⟩ | ⟨lines, hfile, hsay⟩
  · rw [hnone] at hfind
    simp only [Session.file, Path.normalize_of_isPlain hplain, hpath, hread, FileTree.read, hfind]
    rfl
  · have hfragments := (fragments_append_unlines hsay skipGap_nil).2
    rw [List.append_nil, Document.fragments_eq_nil.mpr skipGap_nil, List.append_nil] at hfragments
    have hconfig : Document.config (Utf8.encodeAll (Render.unlines lines))
        = { inputMap := entries } := by
      rw [Document.config, hfragments, mergeAll_entries]
    rw [hfile] at hfind
    simp only [if_neg hopens.endsInName] at hfind
    simp only [Session.file, Path.normalize_of_isPlain hplain, hpath, hread, FileTree.read, hfind]
    exact congrArg Except.ok hconfig

end Runs

/-- Input maps that are written to a new or empty file are all written, leave
    everything else as it was, and are read back from the file, one behind
    another. -/
theorem replays {cs : List Config} (hplain : Path.IsPlain path) (hpath : Path.bytes path = .ok s)
    (hnew : tree.node? (tree.below s).dropLast = some .directory ∧ tree.node? (tree.below s) = none ∨
      tree.node? (tree.below s) = some (.file []))
    (hcs : ∀ c ∈ cs, c.debugLog = some path ∧ ∀ e ∈ c.inputMap, e.Catalogued) :
    (outcomes tree cs).map (·.written) = cs.map (fun _ => .ok true) ∧
      (∀ place ≠ tree.below s, (treeAfter tree cs).node? place = tree.node? place) ∧
      ∀ session : Session, session.disk = (treeAfter tree cs).disk →
        (session.file path).run.value = .ok { inputMap := cs.flatMap (·.inputMap) } := by
  have hsegments := Path.isPlain_segments hplain (Path.encodeEscaped?_of_bytes hpath)
  have hplace : tree.placeOf s = tree.below s := FileTree.placeOf_of_isPlain hsegments
  have hopens : tree.Opens s := by
    refine FileTree.opens_of_isPlain hsegments ?_
    rcases hnew with ⟨hheld, hnone⟩ | hempty
    · exact ⟨hheld, hnone ▸ nofun⟩
    · exact FileTree.accepts_of_file hempty
  have hlogs : Logs tree (tree.placeOf s) [] := by
    rw [hplace]
    exact hnew.imp (fun hnone => ⟨hnone.2, rfl⟩) fun hempty => ⟨[], hempty, .nil⟩
  obtain ⟨hwritten, hframe, hopens', hplace', hlogs'⟩ := run_of_logs hpath hopens hlogs hcs
  rw [← hplace'] at hlogs'
  rw [hplace] at hframe
  exact ⟨hwritten, hframe, fun session hdisk => file_of_logs hpath hplain hdisk hopens' hlogs'⟩

/-- A working directory with one for logs, and another file beside it. -/
def logTree : FileTree where
  nodes := [([asciiBytes "home"], .directory), ([asciiBytes "home", asciiBytes "logs"], .directory),
    ([asciiBytes "home", asciiBytes "notes"], .file [0x61])]
  workingDirectory := [asciiBytes "home"]

/-- Two configurations that log to one file in it, with an entry each. -/
def logConfigs : List Config :=
  [ { debugLog := some "logs/map", inputMap := [⟨none, [0x0E, 0x48], ⟨⟨"KUp", none⟩, []⟩⟩] },
    { debugLog := some "logs/map", vmin := some 1,
      inputMap := [⟨none, [0x0E, 0x48], ⟨⟨"KFun", some (.int 5)⟩, [⟨"MAlt"⟩]⟩⟩] } ]

/-- The file says both entries, and the other one says what it did. -/
theorem logConfigs_replay :
    (outcomes logTree logConfigs).map (·.written) = [.ok true, .ok true] ∧
      (treeAfter logTree logConfigs).node? [asciiBytes "home", asciiBytes "notes"]
        = some (.file [0x61]) ∧
      ∀ session : Session, session.disk = (treeAfter logTree logConfigs).disk →
        (session.file "logs/map").run.value =
          .ok { inputMap := [⟨none, [0x0E, 0x48], ⟨⟨"KUp", none⟩, []⟩⟩,
            ⟨none, [0x0E, 0x48], ⟨⟨"KFun", some (.int 5)⟩, [⟨"MAlt"⟩]⟩⟩] } := by
  have hplain : Path.IsPlain "logs/map" := by
    unfold Path.IsPlain
    decide
  have hkeys : ∀ c ∈ logConfigs, c.debugLog = some (Text.ofString "logs/map") ∧
      ∀ e ∈ c.inputMap, e.Catalogued := by
    have hlimit : HasNumeral 5 := lt_decimalLimit (by decide) (by decide)
    have hnone : ∀ t : Text, t ∈ none → t.StandsForBytes :=
      fun t ht => absurd ht (Option.not_mem_none t)
    have hup : Entry.Catalogued ⟨none, [0x0E, 0x48], ⟨⟨"KUp", none⟩, []⟩⟩ :=
      { term := hnone, key := ⟨none, by decide, .none⟩, modifiers := by decide,
        fits := Key.numberFits_none }
    have hfun : Entry.Catalogued ⟨none, [0x0E, 0x48], ⟨⟨"KFun", some (.int 5)⟩, [⟨"MAlt"⟩]⟩⟩ :=
      { term := hnone
        key := ⟨some .int, by decide, .int 5⟩
        modifiers := by decide
        fits := Key.numberFits_int.mpr hlimit }
    intro c hc
    rcases List.mem_cons.mp hc with rfl | hc
    · exact ⟨rfl, List.forall_mem_singleton.mpr hup⟩
    · rw [List.mem_singleton.mp hc]
      exact ⟨rfl, List.forall_mem_singleton.mpr hfun⟩
  have hpath : Path.bytes "logs/map" = .ok (asciiBytes "logs/map") := by decide
  have hnew : logTree.node? (logTree.below (asciiBytes "logs/map")).dropLast = some .directory ∧
      logTree.node? (logTree.below (asciiBytes "logs/map")) = none := by decide
  obtain ⟨hwritten, hframe, hread⟩ := replays hplain hpath (Or.inl hnew) hkeys
  refine ⟨hwritten, ?_, hread⟩
  rw [hframe _ (by decide)]
  decide

end DebugLog

end TerminalConfig
