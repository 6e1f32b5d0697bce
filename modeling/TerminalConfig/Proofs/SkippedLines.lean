import TerminalConfig.Proofs.ByteClasses
import TerminalConfig.Proofs.Directives
import TerminalConfig.Proofs.FixedText
import TerminalConfig.Proofs.Statements
import TerminalConfig.Proofs.TokenStream

/-! # Skipped lines — a line that is no directive costs itself alone

    A directive starts with its keyword, so a line that starts with something else is
    none, whatever else it holds: quotes and comments that are never closed, too.  To
    tell, its first word is read, and the gap behind that word may go far beyond the
    line, or fail there.  Nothing of this is kept, and reading goes on behind the line.

    * What a directive starts with is told by the bytes of the first line
      (`leadingName?_append`, `Reader.leadingName?_of_directive`).
    * So one step through the document drops the line (`Statement.next?_of_foreignLine`),
      and the steps behind it go on with the text behind it
      (`Document.foreign_line_drops_itself`). -/

namespace TerminalConfig

/-- The identifier that the bytes start with, if they start with one. -/
def leadingName? (s : Bytes) : Option String :=
  if s.head?.any startsIdentifier then some (latinString (s.takeWhile continuesIdentifier))
  else none

/-- A line that starts neither with a gap nor with the keyword of a directive.  Nothing
    is said of what stands behind its start. -/
structure IsForeignLine (j : Bytes) : Prop where
  ne_nil : j ≠ []
  newline_not_mem : newline ∉ j
  not_blank : ¬ j.head?.any isBlank
  not_lineComment : ¬ startsLineComment j
  not_blockComment : ¬ startsBlockComment j
  not_map : leadingName? j ≠ some "map"
  not_debugLog : leadingName? j ≠ some "debugLog"

/-! ## The start of a line -/

/-- A newline ends the identifier in front of it. -/
theorem leadingName?_append (j r : Bytes) : leadingName? (j ++ newline :: r) = leadingName? j := by
  have htake : (j ++ newline :: r).takeWhile continuesIdentifier
      = j.takeWhile continuesIdentifier := by
    induction j with
    | nil => exact List.takeWhile_cons_of_neg (by decide)
    | cons b j ih =>
        rw [List.cons_append, List.takeWhile_cons, List.takeWhile_cons, ih]
  have hhead : (j ++ newline :: r).head?.any startsIdentifier = j.head?.any startsIdentifier := by
    cases j with
    | nil => exact (by decide : startsIdentifier newline = false)
    | cons b j => rfl
  rw [leadingName?, leadingName?, htake, hhead]

namespace Reader

/-- An identifier that is read is the one that the bytes start with. -/
theorem leadingName?_of_identifier {s t : Bytes} {name : String}
    (h : identifier.run s = .ok (name, t)) : leadingName? s = some name := by
  obtain ⟨hstart, hname, -⟩ := run_identifier_eq_ok.mp h
  rw [leadingName?, if_pos hstart, hname]

/-- A directive is read only where its keyword stands. -/
theorem leadingName?_of_directive {s t : Bytes} {d : Directive}
    (h : directive.run s = .ok (d, t)) :
    leadingName? s = some "map" ∨ leadingName? s = some "debugLog" := by
  rcases run_directive_eq_ok.mp h with h | h
  · obtain ⟨u, hname, -⟩ := identifier_of_mapDirective h
    exact Or.inl (leadingName?_of_identifier hname)
  · obtain ⟨u, hname, -⟩ := identifier_of_debugLogDirective h
    exact Or.inr (leadingName?_of_identifier hname)

end Reader

theorem restOfLine_append {j : Bytes} (h : newline ∉ j) (r : Bytes) :
    restOfLine (j ++ newline :: r) = j :=
  (takeWhile_append_of_stop (ne_newline_of_not_mem h)
    (fun b hb => by rw [← Option.some.inj hb]; decide)).1

/-! ## Dropping a line -/

namespace IsForeignLine

variable {j : Bytes}

/-- No gap starts at such a line, whatever follows it. -/
theorem settled (h : IsForeignLine j) (r : Bytes) : Settled (j ++ newline :: r) := by
  obtain ⟨a, j, rfl⟩ := List.exists_cons_of_ne_nil h.ne_nil
  refine settled_cons.mpr ⟨h.not_blank, ?_, ?_⟩
  · -- on a line of one byte, the byte behind it is the newline
    cases j with
    | nil => simp [startsLineComment, newline, dash]
    | cons b j => exact h.not_lineComment
  · cases j with
    | nil => simp [startsBlockComment, newline, dash]
    | cons b j => exact h.not_blockComment

/-- No directive is read there, whatever follows the line. -/
theorem run_directive (h : IsForeignLine j) (r : Bytes) :
    ∃ e, Reader.directive.run (j ++ newline :: r) = .error e := by
  cases hrun : Reader.directive.run (j ++ newline :: r) with
  | error e => exact ⟨e, rfl⟩
  | ok v =>
      have hname := Reader.leadingName?_of_directive hrun
      rw [leadingName?_append] at hname
      exact (hname.elim h.not_map h.not_debugLog).elim

end IsForeignLine

/-- One step through a document drops the line and stops right behind it. -/
theorem Statement.next?_of_foreignLine {j : Bytes} (h : IsForeignLine j) (r : Bytes) :
    Statement.next? (j ++ newline :: r) = some (.skipped (.unrecognized j), r) := by
  obtain ⟨e, he⟩ := h.run_directive r
  have hnext := Statement.next?_of_unrecognized (h.settled r) (by simp) he
  rwa [restOfLine_append h.newline_not_mem, afterLine_line h.newline_not_mem] at hnext

namespace Document

/-- A line that starts with no keyword is dropped, and what follows it is read as if
    it stood alone, whatever the line and the text behind it hold. -/
theorem foreign_line_drops_itself {j : Bytes} (h : IsForeignLine j) (r : Bytes) :
    statements (j ++ newline :: r) = .skipped (.unrecognized j) :: statements r ∧
      fragments (j ++ newline :: r) = .empty :: fragments r ∧
      ∀ source, (read source (j ++ newline :: r)).value = (read source r).value := by
  have hnext := Statement.next?_of_foreignLine h r
  refine ⟨statements_of_next? hnext, fragments_of_next? hnext, ?_⟩
  intro source
  show config (j ++ newline :: r) = config r
  rw [config_of_next? hnext]
  exact Config.empty_merge _

/-- A word in front of a comment and a string that the line does not close, with a
    backslash at its end. -/
def openedLine : Bytes :=
  asciiBytes "mapped \x7b- \"\\"

/-- A line that is no directive either, closes a comment and has a directive behind it. -/
def closingLines : Bytes :=
  asciiBytes "map -\x7d\ndebugLog \"/x\""

/-- The gap behind the first word goes up to the directive, over both lines.  Still each
    of them is dropped by itself. -/
theorem openedLine_drops_itself :
    IsForeignLine openedLine ∧
      Reader.identifier.run (openedLine ++ newline :: closingLines)
        = .ok ("mapped", asciiBytes "debugLog \"/x\"") ∧
      fragments (openedLine ++ newline :: closingLines)
        = [.empty, .empty, { debugLog := some "/x" }] := by
  have hline : IsForeignLine openedLine :=
    ⟨by decide, by decide, by decide, by decide, by decide, by decide +kernel, by decide +kernel⟩
  have hrest : fragments closingLines = [.empty, { debugLog := some "/x" }] := by
    decide +kernel
  refine ⟨hline, by decide +kernel, ?_⟩
  rw [(foreign_line_drops_itself hline _).2.1, hrest]

end Document

end TerminalConfig
