import TerminalConfig.Lexical.Reader

/-! # Diagnostics — failures with a place that a user can find

    A place is an offset into the buffer; a user is told the line and the
    column.  Both count from one, a line ends at a newline only, and a
    column is one byte. -/

namespace TerminalConfig

/-- A place in a source. -/
structure Location where
  offset : Nat
  line : Nat
  column : Nat
deriving DecidableEq, Repr

/-- The place at an offset of a buffer. -/
def Location.ofOffset (buffer : Bytes) (offset : Nat) : Location :=
  let before := buffer.take offset
  let lineStart := before.length - (before.reverse.takeWhile (· != newline)).length
  { offset
    line := before.count newline + 1
    column := offset - lineStart + 1 }

/-- A located message about a source. -/
structure Diagnostic where
  source : Text
  location : Location
  message : Text
deriving DecidableEq

namespace Diagnostic

/-- A message about the place where `site` remains of a buffer. -/
def ofFailure (source : Text) (buffer : Bytes) (e : Failure) : Diagnostic where
  source := source
  location := .ofOffset buffer (buffer.length - e.site.length)
  message := e.fault.message

/-- The one line that shows a diagnostic. -/
def text (d : Diagnostic) : Text :=
  d.source ++ ":" ++ Text.decimal d.location.line ++ ":" ++ Text.decimal d.location.column
    ++ ": " ++ d.message

end Diagnostic

end TerminalConfig
