import TerminalConfig.CommandLine.Arguments
import TerminalConfig.Render
import TerminalConfig.Session

/-! # The command line — showing a configuration

    A run prints the configuration of the given files, or of the user's own
    sources when no file is given, as text in the language of configuration
    files.  With `--standard-io` the terminal baseline comes first, and
    without the name of a terminal the run ends with a message instead. -/

namespace TerminalConfig

namespace CommandLine

/-- How a run ends. -/
inductive Exit
  | success
  | usage
  | session (fault : SessionFault)
  | render (fault : RenderFault)
deriving DecidableEq

/-- What a run prints and reports, and how it ends. -/
structure Outcome where
  output : Text := []
  log : List LogRecord := []
  exit : Exit
deriving DecidableEq

/-- The words for a fault of a session. -/
def faultMessage : SessionFault → Text
  | .missingTerm => "TERM environment variable not set"
  | .path .nulByte => "embedded null byte"
  | .path .loneSurrogate => "surrogates not allowed"
  | .file path fault => fault.message path

/-- What is printed when help is asked for. -/
def helpText : Text :=
  "usage: [-h] [--standard-io] [--verbose] [paths ...]\n\n"
    ++ "Show the effective terminal configuration built from config files and environment.\n"

/-- The configuration of the sources that are asked for. -/
def sources (session : Session) (paths : List Text) : Loading Config :=
  match paths with
  | [] => session.user
  | paths => return .mergeAll (← paths.mapM fun path => session.file (Path.normalize path))

/-- The configuration that is asked for. -/
def gather (session : Session) (invocation : Invocation) : Loading Config := do
  let config ← sources session invocation.paths
  if invocation.standardIo then
    let base ← ExceptT.mk (pure session.baseline)
    return base.merge config
  else
    return config

/-- Runs a command line; the reports are kept when they are asked for. -/
def run (session : Session) (words : List Text) : Outcome :=
  match Invocation.ofWords words with
  | .error .help => { output := helpText, exit := .success }
  | .error .usage => { exit := .usage }
  | .ok invocation =>
      let gathered := (gather session invocation).run
      let log := if invocation.verbose then gathered.log else []
      match gathered.value with
      | .error fault => { log, exit := .session fault }
      | .ok config =>
          match Render.config config with
          | .error fault => { log, exit := .render fault }
          | .ok output => { output, log, exit := .success }

end CommandLine

end TerminalConfig
