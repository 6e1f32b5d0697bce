import TerminalConfig.Config
import TerminalConfig.Render.Literal
import TerminalConfig.Text.Quoted
import TerminalConfig.Text.Utf8

/-! # Rendering — configurations as text in their own language

    What has a directive is rendered as one, a line each: the debug log and
    then the entries of the input map.  The other scalars come before them,
    as comments.  A rendering reads back to the same debug log and the same
    input map.

    Two things cannot be rendered: a number with more digits than a numeral
    may have, and a text with a surrogate that stands for no byte.  Where a
    configuration holds several of these, the first one in the order of the
    lines is reported; in an entry, the terminal comes before the key. -/

namespace TerminalConfig

/-- Why a configuration cannot be rendered. -/
inductive RenderFault
  | longNumber
  | loneSurrogate
deriving DecidableEq, Repr

namespace Render

/-- A number in decimal. -/
def number (n : Int) : Except RenderFault Text :=
  if n.natAbs < decimalLimit maxDecimalDigits then
    .ok ((if n < 0 then Text.ofString "-" else []) ++ Text.decimal n.natAbs)
  else .error .longNumber

/-- A truth value. -/
def truth (b : Bool) : Text :=
  if b then "True" else "False"

/-- A string literal that names the text. -/
def text (t : Text) : Except RenderFault Text :=
  match Utf8.encodeEscaped? t with
  | some s => .ok (stringLiteral s)
  | none => .error .loneSurrogate

/-- A key and its payload. -/
def key (k : Key) : Except RenderFault Text :=
  match k.payload with
  | none => .ok k.name
  | some (.char c) => .ok (k.name ++ " " ++ charLiteral c)
  | some (.int n) => return k.name ++ " " ++ (← number n)

/-- A list of modifiers in brackets. -/
def modifiers (ms : List Modifier) : Text :=
  "[" ++ ((ms.map fun m => Text.ofString m.name).intersperse (Text.ofString ", ")).flatten ++ "]"

/-- An event: its key and its modifiers. -/
def event (e : Event) : Except RenderFault Text :=
  return (← key e.key) ++ " " ++ modifiers e.modifiers

/-- The terminals an entry is for. -/
def terminalFilter : Option Text → Except RenderFault Text
  | none => .ok "_"
  | some term => text term

/-- A `map` directive. -/
def entry (e : Entry) : Except RenderFault Text := do
  let term ← terminalFilter e.term
  let event ← event e.event
  return "map " ++ term ++ " " ++ stringLiteral e.data ++ " " ++ event

/-- A `map` directive for each entry. -/
def inputMap (entries : List Entry) : Except RenderFault (List Text) :=
  entries.mapM entry

/-- A `debugLog` directive. -/
def debugLog (path : Text) : Except RenderFault Text :=
  return "debugLog " ++ (← text path)

/-- A comment that tells the value of a scalar. -/
def remark (name : String) (value : Except RenderFault Text) : Except RenderFault Text :=
  return "-- " ++ Text.ofString name ++ " = " ++ (← value)

/-- The comments for the scalars that have no directive, where they are
    present. -/
def remarks (c : Config) : List (Except RenderFault Text) :=
  [ c.vmin.map fun n => remark "vmin" (number n),
    c.vtime.map fun n => remark "vtime" (number n),
    c.mouseMode.map fun b => remark "mouse_mode" (.ok (truth b)),
    c.bracketedPasteMode.map fun b => remark "bracketed_paste_mode" (.ok (truth b)),
    c.inputFd.map fun n => remark "input_fd" (number n),
    c.outputFd.map fun n => remark "output_fd" (number n),
    c.termName.map fun t => remark "term_name" (.ok t.quoted) ].filterMap id

/-- The lines of a configuration. -/
def lines (c : Config) : Except RenderFault (List Text) := do
  let scalars ← (remarks c).mapM id
  let log ← c.debugLog.toList.mapM debugLog
  let entries ← inputMap c.inputMap
  return scalars ++ log ++ entries

/-- Lines as one text, each ended by a newline. -/
def unlines (ls : List Text) : Text :=
  ls.flatMap (· ++ "\n")

/-- A configuration as a text. -/
def config (c : Config) : Except RenderFault Text :=
  return unlines (← lines c)

end Render

end TerminalConfig
