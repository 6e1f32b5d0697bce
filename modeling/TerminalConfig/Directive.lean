import TerminalConfig.Config
import TerminalConfig.Text.Payload

/-! # Directives — the statements of a configuration file

    A `map` directive gives an event to bytes, on every terminal (`_`) or on
    one named by a string; a `debugLog` directive names the file that input
    maps are logged to.  Each is a sequence of tokens, so its layout over
    lines is free. -/

namespace TerminalConfig

/-- A statement that a configuration file can make. -/
inductive Directive
  | map (entry : Entry)
  | debugLog (path : Text)
deriving DecidableEq

namespace Directive

/-- What the directive adds to a configuration. -/
def fragment : Directive → Config
  | map entry => { inputMap := [entry] }
  | debugLog path => { debugLog := some path }

end Directive

namespace Reader

/-- An identifier that has to be the keyword. -/
def keyword (expected : String) : Reader Unit :=
  fromStart do
    let found ← identifier
    if found = expected then return .ok () else return .error (.expectedKeyword expected found)

/-- The terminals an entry is for: `_` alone, whatever follows it, is all of
    them. -/
def terminalFilter : Reader (Option Text) := do
  if (← ahead) = some underscore then
    lexeme skipByte
    return none
  else
    return some (← stringLiteral).payloadText

/-- A `map` directive. -/
def mapDirective : Reader Directive := do
  keyword "map"
  let term ← terminalFilter
  let data ← stringLiteral
  let key ← Key.reader
  let modifiers ← Modifier.listReader
  return .map { term, data := data.payload, event := { key, modifiers } }

/-- A `debugLog` directive. -/
def debugLogDirective : Reader Directive := do
  keyword "debugLog"
  return .debugLog (← stringLiteral).payloadText

/-- Any directive; each is tried from the same place. -/
def directive : Reader Directive :=
  mapDirective.orElse debugLogDirective

/-- A keyword takes at least a byte. -/
theorem progresses_keyword (expected : String) : (keyword expected).Progresses :=
  Progresses.fromStart progresses_identifier.bind

/-- A directive takes at least its keyword. -/
theorem progresses_directive : directive.Progresses :=
  Progresses.orElse (Progresses.bind (progresses_keyword _))
    (Progresses.bind (progresses_keyword _))

end Reader

end TerminalConfig
