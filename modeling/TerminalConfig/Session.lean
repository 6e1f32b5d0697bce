import TerminalConfig.Document
import TerminalConfig.Files.Tree

/-! # Sessions — where the configuration of a session comes from

    The sources, later ones winning for scalars and adding to the input map:
    the terminal baseline, the user's file, the file that the environment
    names, and what the environment says itself.  A file that cannot be
    opened adds nothing and is reported.  A session fails without the name of
    its terminal, on a path that can name no file, and where the system does not
    say whether the user's file is there. -/

namespace TerminalConfig

/-- The variables of an environment. -/
abbrev Environment := List (String × Text)

/-- Files as a session sees them: what the system answers when it is asked to
    read or to find what is at a path. -/
structure Disk where
  read : Bytes → Except FileFault Bytes
  find : Bytes → Except FileFault Unit

/-- The files of a tree. -/
def FileTree.disk (tree : FileTree) : Disk where
  read := tree.read
  find path := discard (tree.find path)

/-- Where the user's file may be: the path in force, the standard one, and the
    one that was used before, each as `Path.normalize` leaves it. -/
structure UserPaths where
  current : Text
  standard : Text
  legacy : Text
deriving DecidableEq

/-- What a session is made from. -/
structure Session where
  disk : Disk
  environment : Environment
  paths : UserPaths

/-- Why there is no configuration for a session. -/
inductive SessionFault
  | missingTerm
  | path (fault : PathFault)
  | file (path : Text) (fault : FileFault)
deriving DecidableEq

/-- What may be reported on the way to a configuration or to a fault. -/
abbrev Loading := ExceptT SessionFault Logged

namespace Session

/-- The variable that names the terminal. -/
def termVariable : String := "TERM"

/-- The variable that names a file to be read after the user's. -/
def fileVariable : String := "TTYCONF_CONFIG_FILE"

/-- The variable that names the debug log. -/
def debugLogVariable : String := "TTYCONF_DEBUG_LOG"

/-- A variable of the environment. -/
def setting? (session : Session) (name : String) : Option Text :=
  session.environment.lookup name

/-- Whether anything is at a path.  Nothing is at one that can name no file; of
    the errors only those count as an answer that tell that nothing is there. -/
def isPresent (session : Session) (path : Text) : Except SessionFault Bool :=
  match Path.bytes path with
  | .error _ => .ok false
  | .ok s =>
      match session.disk.find s with
      | .ok () => .ok true
      | .error fault => if fault.TellsAbsence then .ok false else .error (.file path fault)

/-- The path of the user's file: the path used before counts only while the
    standard one is in force and nothing is there. -/
def userPath (session : Session) : Except SessionFault Text := do
  let paths := session.paths
  if ← session.isPresent paths.current then return paths.current
  else if paths.current ≠ paths.standard then return paths.current
  else if ← session.isPresent paths.legacy then return paths.legacy
  else return paths.current

/-- The report on a file that could not be opened. -/
def unreadable (path : Text) (fault : FileFault) : LogRecord :=
  ⟨.debug, .loader,
    "config file " ++ path ++ " not loaded: " ++ fault.message (Path.normalize path)⟩

/-- What the file at a path says. -/
def file (session : Session) (path : Text) : Loading Config :=
  match Path.bytes (Path.normalize path) with
  | .error fault => throw (.path fault)
  | .ok s =>
      match session.disk.read s with
      | .error fault => ExceptT.mk { value := .ok .empty, log := [unreadable path fault] }
      | .ok contents => ExceptT.lift (Document.read path contents)

/-- What the environment says itself. -/
def overrides (session : Session) : Config where
  debugLog := session.setting? debugLogVariable

/-- What the file says that the environment names, if it names one. -/
def named (session : Session) : Loading (List Config) :=
  match session.setting? fileVariable with
  | some (c :: path) => return [← session.file (c :: path)]
  | _ => return []

/-- What the user's sources say. -/
def user (session : Session) : Loading Config := do
  let own ← session.file (← ExceptT.mk (pure session.userPath))
  let named ← session.named
  return .mergeAll (own :: named ++ [session.overrides])

/-- The baseline for a terminal on the standard streams. -/
def baseline (session : Session) : Except SessionFault Config :=
  match session.setting? termVariable with
  | some (c :: name) =>
      .ok {
        vmin := some 1
        vtime := some 100
        mouseMode := some false
        bracketedPasteMode := some false
        inputFd := some 0
        outputFd := some 1
        termName := some (c :: name) }
  | _ => .error .missingTerm

/-- The configuration of a session. -/
def load (session : Session) : Loading Config := do
  let base ← ExceptT.mk (pure session.baseline)
  return base.merge (← session.user)

end Session

end TerminalConfig
