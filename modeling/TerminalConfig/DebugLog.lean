import TerminalConfig.Files.Tree
import TerminalConfig.Log
import TerminalConfig.Render

/-! # The debug log — adding an input map to a file

    The input map of a configuration is added to the end of the file that
    the configuration names, as `map` directives under a heading.  Three things
    are done in this order: the map is rendered, the file is opened, and the
    lines are written.  So a map that cannot be rendered leaves the files as
    they were, and so does a file that cannot be opened, which is reported.

    What the system may refuse although the tree has it is the `Host`: a path
    may be denied, and a write may end early.  `DebugLog.write` is an attempt on
    a host that refuses nothing. -/

namespace TerminalConfig

/-- What the system refuses besides what the tree does not have: to open a path,
    and to go on with a write after so many bytes. -/
structure Host where
  denial? : FileTree → Bytes → Option FileFault := fun _ _ => none
  stop? : OpenFile → Bytes → Option (Nat × FileFault) := fun _ _ => none

/-- Opens the file at a path to be added to. -/
def Host.openToAppend (host : Host) (tree : FileTree) (path : Bytes) :
    Except FileFault OpenFile :=
  match host.denial? tree path with
  | some fault => .error fault
  | none => tree.openToAppend path

namespace DebugLog

/-- Why an input map is not written. -/
inductive Fault
  | render (fault : RenderFault)
  | path (fault : PathFault)
deriving DecidableEq, Repr

/-- What an attempt leaves: the files, whether the map was written or why it
    could not be, and the reports. -/
structure Outcome where
  tree : FileTree
  written : Except Fault Bool
  log : List LogRecord := []

/-- The text that is added for an input map. -/
def block (entries : List Entry) : Except RenderFault Text :=
  return Render.unlines ("-- input map" :: (← Render.inputMap entries))

/-- The report on a file that could not be opened or written. -/
def unwritable (path reason : Text) : LogRecord :=
  ⟨.warning, .debugLog, "cannot write debug log " ++ path ++ ": " ++ reason⟩

/-- Writes to an open file. -/
def add (host : Host) (path : Text) (file : OpenFile) (added : Bytes) : Outcome :=
  match host.stop? file added with
  | none => { tree := file.append added, written := .ok true }
  | some (taken, fault) =>
      { tree := file.append (added.take taken), written := .ok false,
        log := [unwritable path fault.words] }

/-- Adds the input map to the file that the configuration names. -/
def writeOn (host : Host) (tree : FileTree) (c : Config) : Outcome :=
  match c.debugLog with
  | none => { tree, written := .ok false }
  | some path =>
      match block c.inputMap with
      | .error fault => { tree, written := .error (.render fault) }
      | .ok text =>
          match Path.bytes path with
          | .error fault => { tree, written := .error (.path fault) }
          | .ok s =>
              match host.openToAppend tree s with
              | .error fault =>
                  { tree, written := .ok false, log := [unwritable path (fault.message path)] }
              | .ok file => add host path file (Utf8.encodeAll text)

/-- Adds the input map where the tree alone decides. -/
def write (tree : FileTree) (c : Config) : Outcome :=
  writeOn {} tree c

end DebugLog

end TerminalConfig
