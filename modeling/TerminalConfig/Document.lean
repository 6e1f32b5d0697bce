import TerminalConfig.Directive
import TerminalConfig.Lexical.Diagnostic
import TerminalConfig.Log

/-! # Documents — reading a whole configuration tolerantly

    A document is read statement by statement.  A statement is a directive,
    or a line that is skipped: because a comment is opened before the next
    token and never closed, or because no directive can be read.  What is
    skipped adds nothing and is reported; reading always comes to the end.

    A statement whose gap fails starts over where that gap began: the line
    that is skipped is the first line of the gap, not the line of the
    comment. -/

namespace TerminalConfig

/-- Why a line is skipped. -/
inductive Skip
  | openComment (failure : Failure)
  | unrecognized (line : Bytes)
deriving DecidableEq

/-- One step through a document. -/
inductive Statement
  | directive (d : Directive)
  | skipped (why : Skip)
deriving DecidableEq

namespace Statement

/-- The next statement and what follows it; none when only a gap remains. -/
def next? (s : Bytes) : Option (Statement × Bytes) :=
  match skipGap s with
  | .error e => some (.skipped (.openComment e), afterLine s)
  | .ok [] => none
  | .ok t =>
      match Reader.directive.run t with
      | .ok (d, u) => some (.directive d, u)
      | .error _ => some (.skipped (.unrecognized (restOfLine t)), afterLine t)

/-- A statement takes at least a byte. -/
theorem length_next? {s t : Bytes} {statement : Statement} (h : next? s = some (statement, t)) :
    t.length < s.length := by
  simp only [next?] at h
  split at h
  · next e he =>
    cases h
    refine length_afterLine ?_
    intro hs
    rw [hs, skipGap] at he
    cases he
  · cases h
  · next u _ hu hs =>
    have hle := (suffix_skipGap hs).length_le
    split at h
    · next hd =>
      cases h
      exact Nat.lt_of_lt_of_le (Reader.progresses_directive hd) hle
    · cases h
      exact Nat.lt_of_lt_of_le (length_afterLine hu) hle

/-- What the statement adds to a configuration. -/
def fragment : Statement → Config
  | directive d => d.fragment
  | skipped _ => .empty

end Statement

namespace Document

/-- The statements of a document, in order. -/
def statements (s : Bytes) : List Statement :=
  match h : Statement.next? s with
  | none => []
  | some (statement, t) =>
      have := Statement.length_next? h
      statement :: statements t
termination_by s.length

/-- What the statements add, one by one. -/
def fragments (s : Bytes) : List Config :=
  (statements s).map Statement.fragment

/-- All that the document says. -/
def config (s : Bytes) : Config :=
  .mergeAll (fragments s)

/-- The words for a skipped line of a document. -/
def skipText (source : Text) (buffer : Bytes) : Skip → Text
  | .openComment e => "skipping line: " ++ (Diagnostic.ofFailure source buffer e).text
  | .unrecognized line =>
      source ++ ": ignoring unrecognized line " ++ Text.quoted (Text.ofBytes line)

/-- The report on one statement: only skipped lines have one. -/
def report? (source : Text) (buffer : Bytes) : Statement → Option LogRecord
  | .directive _ => none
  | .skipped why => some ⟨.debug, .parser, skipText source buffer why⟩

/-- The reports on a document, in order. -/
def log (source : Text) (s : Bytes) : List LogRecord :=
  (statements s).filterMap (report? source s)

/-- All that a document says, with the reports on it. -/
def read (source : Text) (s : Bytes) : Logged Config where
  value := config s
  log := log source s

end Document

end TerminalConfig
