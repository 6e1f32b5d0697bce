import TerminalConfig.Text.Category

/-! # Arguments — what a command line asks for

    There are three options, all flags: `--standard-io`, `--verbose` and
    `--help`, which is also `-h`.  A long option may be cut short as long as
    only one begins so.  Everything else is a path: words without a leading
    dash, the empty word and a lone dash, negative numbers, words with a
    space in them, and all that follows a `--`.  Paths stand together: options
    come before or after them, not between them. -/

namespace TerminalConfig

/-- What a command line asks for. -/
structure Invocation where
  paths : List Text := []
  standardIo : Bool := false
  verbose : Bool := false
deriving DecidableEq

/-- Why a command line asks for nothing that can be done. -/
inductive Refusal
  | help
  | usage
deriving DecidableEq, Repr

/-- What a word before any `--` is. -/
inductive Word
  | path
  | standardIo
  | verbose
  | help
  | misused
  | unknown
  | ambiguous
deriving DecidableEq, Repr

namespace Word

/-- The long options. -/
def longOptions : List (Text × Word) :=
  [("--help", help), ("--standard-io", standardIo), ("--verbose", verbose)]

/-- Whether the word is a minus sign and a number, whole or with a point; a
    newline may follow. -/
def isNegativeNumber : Text → Bool
  | [] => false
  | sign :: body =>
      let digits :=
        if body.getLast? = some (CodePoint.ofChar '\n') then body.dropLast else body
      let whole := digits.takeWhile CodePoint.isDecimalDigit
      sign == CodePoint.ofChar '-' &&
        match digits.dropWhile CodePoint.isDecimalDigit with
        | [] => !whole.isEmpty
        | point :: fraction =>
            point == CodePoint.ofChar '.' && !fraction.isEmpty
              && fraction.all CodePoint.isDecimalDigit

/-- What stands behind `-h` in its word: each letter is an option of its own, and
    `h` is the only one.  An `=` right behind `-h` may set the letters off, but
    not stand there without any. -/
def shortHelp (tail : Text) : Word :=
  let letters := if tail.head? = some (CodePoint.ofChar '=') then tail.drop 1 else tail
  if tail ≠ [] ∧ letters = [] then misused
  else if letters.all (· == CodePoint.ofChar 'h') then help
  else misused

/-- A word that begins with a dash and is no option. -/
def unmatched (t : Text) : Word :=
  if isNegativeNumber t || t.contains (CodePoint.ofChar ' ') then path else unknown

/-- A word that begins with two dashes. -/
def ofLong (t : Text) : Word :=
  let name := t.takeWhile (· != CodePoint.ofChar '=')
  let hasArgument := t.contains (CodePoint.ofChar '=')
  match longOptions.filter (fun option => name.isPrefixOf option.1) with
  | [] => unmatched t
  | [option] => if hasArgument then misused else option.2
  | _ => ambiguous

/-- A word that begins with one dash. -/
def ofShort (t : Text) : Word :=
  match t.drop 1 with
  | [] => path
  | c :: tail => if c = CodePoint.ofChar 'h' then shortHelp tail else unmatched t

/-- What a word is. -/
def ofText (t : Text) : Word :=
  if t.head? ≠ some (CodePoint.ofChar '-') then path
  else if t.tail.head? = some (CodePoint.ofChar '-') then ofLong t
  else ofShort t

end Word

namespace Invocation

/-- The word that ends the options. -/
def terminator : Text := "--"

/-- The paths among words that are paths where marked: a single run of them,
    less the word that ends the options. -/
def gatherPaths (words : List (Text × Bool)) : Except Refusal (List Text) :=
  let fromFirst := words.dropWhile (!·.2)
  let run := fromFirst.takeWhile (·.2)
  let behind := fromFirst.dropWhile (·.2)
  if behind.any (·.2) then .error .usage
  else .ok ((run.map (·.1)).erase terminator)

/-- What the words of a command line ask for. -/
def ofWords (words : List Text) : Except Refusal Invocation := do
  let leading := words.takeWhile (· != terminator)
  let trailing := words.dropWhile (· != terminator)
  let kinds := leading.map Word.ofText
  if Word.ambiguous ∈ kinds then throw .usage
  match kinds.find? (fun kind => kind == .help || kind == .misused) with
  | some .help => throw .help
  | some _ => throw .usage
  | none => pure ()
  if Word.unknown ∈ kinds then throw .usage
  let paths ← gatherPaths
    (leading.zip (kinds.map (· == .path)) ++ trailing.map fun word => (word, true))
  return {
    paths
    standardIo := Word.standardIo ∈ kinds
    verbose := Word.verbose ∈ kinds }

end Invocation

end TerminalConfig
