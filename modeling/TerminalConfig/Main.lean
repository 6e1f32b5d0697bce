import TerminalConfig.CommandLine
import TerminalConfig.Source

/-! # The program — the command line on real files

    The only module that touches the outside: it reads the variables and
    every file that the run may ask for, hands them to `CommandLine.run`,
    and prints what comes back. -/

namespace TerminalConfig

namespace Program

/-- The fault that an error of the system stands for.  Of the errors that it does
    not tell apart, the number is not known here. -/
def fileFault : IO.Error → FileFault
  | .noFileOrDirectory _ _ _ => .missing
  | .permissionDenied _ _ _ => .denied
  | .inappropriateType _ code details => ofCode code details
  | .invalidArgument _ code details => ofCode code details
  | .otherError code details => ofCode code details
  | e => ⟨0, e.toString⟩
where
  /-- Some systems give the numbers a minus sign. -/
  ofCode (code : UInt32) (details : String) : FileFault :=
    let number := min code.toNat (0 - code).toNat
    match [FileFault.notDirectory, .isDirectory].find? (·.number = number) with
    | some fault => fault
    | none => ⟨number, details⟩

/-- What the system answers about a path. -/
def ask {α : Type} (path : Bytes) (question : String → IO α) : IO (Except FileFault α) := do
  match String.fromUTF8? path.toByteArray with
  | none => return .error .missing
  | some name =>
      try
        return .ok (← question name)
      catch e =>
        return .error (fileFault e)

/-- What is known of the files at some paths, which are asked for once. -/
def snapshot (paths : List Text) : IO Disk := do
  let mut contents : List (Bytes × Except FileFault Bytes) := []
  let mut found : List (Bytes × Except FileFault Unit) := []
  for path in paths do
    if let .ok s := Path.bytes (Path.normalize path) then
      contents := (s, ← ask s fun name => return (← IO.FS.readBinFile name).toList) :: contents
      found := (s, ← ask s fun name => discard (IO.FS.realPath name)) :: found
  let read := contents
  let find := found
  return {
    read := fun s => (read.lookup s).getD (.error .missing)
    find := fun s => (find.lookup s).getD (.error .missing) }

/-- A variable of the real environment, as text; unset ones are empty. -/
def setting (name : String) : IO Text := do
  return Text.ofString ((← IO.getEnv name).getD "")

/-- The variables that a session looks at. -/
def environment : IO Environment := do
  let names := [Session.termVariable, Session.fileVariable, Session.debugLogVariable]
  names.filterMapM fun name => do
    return (← IO.getEnv name).map fun value => (name, Text.ofString value)

/-- Where the user's file may be. -/
def userPaths : IO UserPaths := do
  let home ← setting "HOME"
  let directory ← setting "XDG_CONFIG_HOME"
  let base := if directory.isEmpty then home ++ "/.config" else directory
  let standard := Path.normalize (base ++ "/ttyconf/config")
  return {
    current := standard
    standard
    legacy := Path.normalize (home ++ "/.ttyconf/config") }

/-- The paths that a run may ask for. -/
def candidates (words : List Text) (paths : UserPaths) (env : Environment) : List Text :=
  let asked :=
    match Invocation.ofWords words with
    | .ok invocation => invocation.paths
    | .error _ => []
  asked ++ [paths.current, paths.legacy] ++ (env.lookup Session.fileVariable).toList

/-- Prints a text as the bytes it stands for. -/
def print (stream : IO.FS.Stream) (t : Text) : IO Unit := do
  stream.write (Source.text t).buffer.toByteArray
  stream.flush

/-- Runs the command line, and gives the status to end with. -/
def run (args : List String) : IO UInt32 := do
  let words := args.map Text.ofString
  let paths ← userPaths
  let environment ← environment
  let disk ← snapshot (candidates words paths environment)
  let outcome := CommandLine.run { disk, environment, paths } words
  let errors ← IO.getStderr
  print errors (outcome.log.flatMap fun r => r.line ++ "\n")
  print (← IO.getStdout) outcome.output
  match outcome.exit with
  | .success => return 0
  | .usage =>
      print errors CommandLine.helpText
      return 2
  | .session fault =>
      print errors (CommandLine.faultMessage fault ++ "\n")
      return 1
  | .render _ =>
      print errors "the configuration cannot be rendered\n"
      return 1

end Program

end TerminalConfig

/-- The program. -/
def main (args : List String) : IO UInt32 :=
  TerminalConfig.Program.run args
