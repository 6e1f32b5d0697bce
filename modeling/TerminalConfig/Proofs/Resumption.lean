import TerminalConfig.Proofs.Bounds
import TerminalConfig.Proofs.Coverage

/-! # Resumption — reading goes on as if nothing had been read

    Wherever a step through a document begins, what is read from there on depends on
    what is left alone.  A report tells where its fault lies in the whole text, but
    differs only by the lines in front (`Location.ofOffset_append`), since a comment
    that nothing closes costs a line only from its start on:

    * behind a directive no gap starts, and a line that is dropped ends with its
      newline (`Statement.ends_line_or_settled`);
    * so a step begins at the start of a line, or where no gap starts
      (`Document.Steps.atLineStart_or_settled`), and where a gap does not close, at
      the start of a line (`Document.Steps.atLineStart_of_open`);
    * the line that is dropped then is none that a directive stands on
      (`Document.Steps.newline_behind_directive`).

    `Document.resumes_at_every_step` takes this together. -/

namespace TerminalConfig

/-- A place behind this text is the start of a line. -/
def AtLineStart (passed : Bytes) : Prop :=
  passed = [] ∨ passed.getLast? = some newline

/-- The start of a line is the start of the last part of the text, or a line ends in that
    part. -/
theorem AtLineStart.of_append {passed s : Bytes} (h : AtLineStart (passed ++ s)) :
    AtLineStart passed ∨ newline ∈ s := by
  by_cases hs : s = []
  · rw [hs, List.append_nil] at h
    exact Or.inl h
  · rcases h with hnil | hlast
    · exact absurd (List.append_eq_nil_iff.mp hnil).2 hs
    · rw [List.getLast?_append_of_ne_nil _ hs] at hlast
      exact Or.inr (List.mem_of_getLast? hlast)

/-- What stands in front of the next line holds a newline only at its end. -/
theorem not_mem_dropLast_line {line t : Bytes} (h : t = afterLine (line ++ t)) :
    newline ∉ line.dropLast := by
  by_cases hn : newline ∈ line ++ t
  · obtain ⟨text, u, hsplit, ht⟩ := List.eq_append_cons_of_mem hn
    rw [hsplit, afterLine_line ht] at h
    rw [← h, List.append_cons] at hsplit
    rw [List.append_cancel_right hsplit, List.dropLast_concat]
    exact ht
  · exact fun hmem => hn (List.mem_append_left t (List.dropLast_subset _ hmem))

/-! ## Places in a longer text -/

namespace Location

/-- The same place with whole lines in front of the text. -/
def below (passed : Bytes) (l : Location) : Location where
  offset := passed.length + l.offset
  line := passed.count newline + l.line
  column := l.column

/-- The column counts the bytes of the line that stand in front of the place. -/
theorem column_ofOffset {buffer : Bytes} {offset : Nat} (h : offset ≤ buffer.length) :
    (ofOffset buffer offset).column
      = ((buffer.take offset).reverse.takeWhile (· != newline)).length + 1 := by
  have hle := (List.takeWhile_sublist (· != newline) (l := (buffer.take offset).reverse)).length_le
  rw [List.length_reverse, List.length_take, Nat.min_eq_left h] at hle
  simp only [ofOffset, List.length_take, Nat.min_eq_left h]
  omega

/-- What stands in front of a line is no part of it. -/
theorem lastLine_append {passed s : Bytes} (h : AtLineStart passed ∨ newline ∈ s) :
    (passed ++ s).reverse.takeWhile (· != newline) = s.reverse.takeWhile (· != newline) := by
  rw [List.reverse_append]
  by_cases hs : newline ∈ s
  · obtain ⟨text, r, hsplit, ht⟩ := List.eq_append_cons_of_mem (List.mem_reverse.mpr hs)
    have hstop : ∀ u : Bytes, (text ++ newline :: u).takeWhile (· != newline) = text := by
      intro u
      exact (takeWhile_append_of_stop (ne_newline_of_not_mem ht)
        (fun b hb => by rw [← Option.some.inj hb]; decide)).1
    rw [hsplit, List.append_assoc, List.cons_append, hstop, hstop]
  · -- all of `s` is on the last line, and that line starts where `s` does
    have hall := ne_newline_of_not_mem (fun h => hs (List.mem_reverse.mp h))
    have hfront : ∀ b ∈ passed.reverse.head?, ¬ (b != newline) = true := by
      intro b hb
      rw [List.head?_reverse] at hb
      rcases h.resolve_right hs with rfl | hlast
      · cases hb
      · rw [hlast] at hb
        rw [← Option.some.inj hb]
        decide
    rw [(takeWhile_append_of_stop hall hfront).1, List.takeWhile_eq_self_iff.mpr hall]

/-- With text in front, a place lies as many lines further down, in the same column, if
    its line starts behind that text. -/
theorem ofOffset_append {passed s : Bytes} {offset : Nat} (h : offset ≤ s.length)
    (hline : AtLineStart passed ∨ newline ∈ s.take offset) :
    ofOffset (passed ++ s) (passed.length + offset) = (ofOffset s offset).below passed := by
  have hle : passed.length + offset ≤ (passed ++ s).length := by
    rw [List.length_append]
    omega
  have htake : (passed ++ s).take (passed.length + offset) = passed ++ s.take offset :=
    List.take_length_add_append offset
  have hcolumn : (ofOffset (passed ++ s) (passed.length + offset)).column
      = (ofOffset s offset).column := by
    rw [column_ofOffset hle, column_ofOffset h, htake, lastLine_append hline]
  have hcount : (ofOffset (passed ++ s) (passed.length + offset)).line
      = passed.count newline + (ofOffset s offset).line := by
    show ((passed ++ s).take (passed.length + offset)).count newline + 1 = _
    rw [htake, List.count_append, Nat.add_assoc]
    rfl
  rw [below, ← hcolumn, ← hcount]
  rfl

end Location

/-! ## Steps -/

namespace Statement

/-- Behind a directive no gap starts. -/
theorem settled_of_directive {s t : Bytes} {d : Directive}
    (h : next? s = some (.directive d, t)) : Settled t := by
  obtain ⟨u, hd⟩ := run_directive_of_next? h
  exact Reader.settled_of_directive hd

/-- Where a step ends, a line ends or no gap starts. -/
theorem ends_line_or_settled {span t : Bytes} {statement : Statement}
    (h : next? (span ++ t) = some (statement, t)) :
    span.getLast? = some newline ∨ Settled t := by
  cases statement with
  | directive d => exact Or.inr (settled_of_directive h)
  | skipped why =>
      refine (ends_line_of_skipped h).imp_right ?_
      rintro rfl
      exact skipGap_nil

end Statement

namespace Document

namespace Steps

variable {s rest span : Bytes} {before after : List (Statement × Bytes)} {statement : Statement}

/-- A step begins at the start of a line, or where no gap starts. -/
theorem atLineStart_or_settled (h : Steps s (before ++ after) rest) :
    AtLineStart (taken before) ∨ Settled (taken after ++ rest) := by
  rcases List.eq_nil_or_concat' before with rfl | ⟨earlier, ⟨statement, span⟩, rfl⟩
  · exact Or.inl (Or.inl rfl)
  · rw [List.append_assoc, List.singleton_append] at h
    refine (Statement.ends_line_or_settled h.next?_eq).imp_left fun hlast => Or.inr ?_
    have hspan : taken [(statement, span)] = span := List.append_nil span
    rw [taken_append, hspan, List.getLast?_append, hlast]
    rfl

/-- Where a gap does not close, one starts. -/
theorem not_settled_of_open {e : Failure}
    (h : Steps s (before ++ (.skipped (.openComment e), span) :: after) rest) :
    ¬ Settled (span ++ (taken after ++ rest)) := by
  intro hsettled
  have he := (Statement.skipGap_of_next? h.next?_eq).1
  rw [hsettled] at he
  cases he

/-- So the line that it costs is dropped from its start on. -/
theorem atLineStart_of_open {e : Failure}
    (h : Steps s (before ++ (.skipped (.openComment e), span) :: after) rest) :
    AtLineStart (taken before) := by
  refine h.atLineStart_or_settled.resolve_right fun hsettled => h.not_settled_of_open ?_
  rwa [taken_cons, List.append_assoc] at hsettled

/-- Between a directive and a line that is dropped for a comment, a line ends: the
    directive stands on none of the bytes that are dropped, nor on their line. -/
theorem newline_behind_directive {d : Directive} {text : Bytes} {e : Failure}
    {between : List (Statement × Bytes)}
    (h : Steps s (before ++ (.directive d, text) :: between
      ++ (.skipped (.openComment e), span) :: after) rest) :
    (taken between).getLast? = some newline := by
  rw [List.append_assoc, List.cons_append] at h
  have hlater := (steps_cons.mp h.later).2.2.2
  refine hlater.atLineStart_of_open.resolve_left fun hnil => hlater.not_settled_of_open ?_
  have hsettled := Statement.settled_of_directive h.next?_eq
  rwa [taken_append, hnil, List.nil_append, taken_cons, List.append_assoc] at hsettled

/-- The fault of a gap that does not close lies behind the place where the step begins. -/
theorem site_of_open {e : Failure}
    (h : Steps s (before ++ (.skipped (.openComment e), span) :: after) rest) :
    e.site <:+ span ++ (taken after ++ rest) :=
  (skipGap_eq_error (Statement.skipGap_of_next? h.next?_eq).1).2.2.1

/-- Such a fault lies in the same column of the text that is left as of the whole text,
    and as many lines further down there as have been passed. -/
theorem location_of_open {passed s : Bytes} (h : Steps (passed ++ s) (before ++ after) rest)
    (hpassed : passed = taken before) (hrun : Steps s after rest) {e : Failure}
    (hmem : (.skipped (.openComment e), span) ∈ after) (source : Text) :
    (Diagnostic.ofFailure source (passed ++ s) e).location
      = (Diagnostic.ofFailure source s e).location.below passed := by
  obtain ⟨between, later, rfl⟩ := List.append_of_mem hmem
  have hs := hrun.covers
  rw [taken_append, taken_cons, List.append_assoc, List.append_assoc] at hs
  have hsite := hrun.site_of_open
  have hle : e.site.length ≤ s.length := by
    rw [hs, List.length_append]
    exact Nat.le_trans hsite.length_le (Nat.le_add_left _ _)
  -- the place is behind the steps between, and these end with a line
  have hbehind : (taken between).length ≤ s.length - e.site.length := by
    have := hsite.length_le
    rw [hs, List.length_append]
    omega
  rw [← List.append_assoc] at h
  have hline := h.atLineStart_of_open
  rw [taken_append, ← hpassed] at hline
  have hfront : AtLineStart passed ∨ newline ∈ s.take (s.length - e.site.length) := by
    refine hline.of_append.imp_right fun hnewline => ?_
    rw [hs, List.take_append, ← hs, List.take_of_length_le hbehind]
    exact List.mem_append_left _ hnewline
  have hoffset : (passed ++ s).length - e.site.length
      = passed.length + (s.length - e.site.length) := by
    rw [List.length_append]
    omega
  show Location.ofOffset (passed ++ s) ((passed ++ s).length - e.site.length) = _
  rw [hoffset, Location.ofOffset_append (Nat.sub_le _ _) hfront]
  rfl

end Steps

/-- From a place on, reading goes on as if what is left stood alone: with the same steps,
    which add the same, and report the same faults so many lines further down. -/
structure Resumes (before after : List (Statement × Bytes)) (passed s rest : Bytes) : Prop where
  run : Steps s after rest
  statements : after.map Prod.fst = statements s
  fragments : (after.map fun step => step.1.fragment) = Document.fragments s
  whole : Document.fragments (passed ++ s)
    = (before.map fun step => step.1.fragment) ++ Document.fragments s
  reports : ∀ source e span, (.skipped (.openComment e), span) ∈ after →
    (Diagnostic.ofFailure source (passed ++ s) e).location
      = (Diagnostic.ofFailure source s e).location.below passed

/-- What is dropped where a gap does not close: the bytes of one line, from its start on,
    behind the end of every line that a directive stands on. -/
structure DropsLine (before : List (Statement × Bytes)) (span : Bytes) : Prop where
  atLineStart : AtLineStart (taken before)
  oneLine : newline ∉ span.dropLast
  newline_behind_directive : ∀ earlier d text between,
    before = earlier ++ (.directive d, text) :: between →
    (taken between).getLast? = some newline

/-- Reading keeps no memory of what it has passed: wherever a step begins, the steps from
    there on are those of the text that is left, read alone.  And where the gap that a
    step begins with does not close, the step begins at the start of a line, so that no
    rest of a line is dropped on which a directive has been read. -/
theorem resumes_at_every_step {s rest : Bytes} {before after : List (Statement × Bytes)}
    (h : Steps s (before ++ after) rest) :
    (∀ passed left, s = passed ++ left → (taken before).length = passed.length →
      Resumes before after passed left rest) ∧
    ∀ e span later, after = (.skipped (.openComment e), span) :: later → DropsLine before span := by
  constructor
  · rintro passed left rfl hlength
    have hcovers := h.covers
    rw [taken_append, List.append_assoc] at hcovers
    obtain ⟨hpassed, hleft⟩ := List.append_inj hcovers hlength.symm
    have hrun : Steps left after rest := hleft ▸ h.later
    refine ⟨hrun, hrun.statements_eq.symm, hrun.fragments_eq.symm, ?_, ?_⟩
    · rw [h.fragments_eq, hrun.fragments_eq, List.map_append]
    · intro source e span hmem
      exact h.location_of_open hpassed hrun hmem source
  · rintro e span later rfl
    have hline := (Statement.skipGap_of_next? h.next?_eq).2
    refine ⟨h.atLineStart_of_open, not_mem_dropLast_line hline, ?_⟩
    rintro earlier d text between rfl
    exact h.newline_behind_directive

/-- A directive with something else behind it on its line. -/
def passedText : Bytes :=
  asciiBytes "debugLog \"/x\" q\n"

/-- A comment that nothing closes, and a line below it. -/
def openedText : Bytes :=
  asciiBytes " \x7b- open\nmap"

def passedSteps : List (Statement × Bytes) :=
  [(.directive (.debugLog "/x"), asciiBytes "debugLog \"/x\" "),
    (.skipped (.unrecognized (asciiBytes "q")), asciiBytes "q\n")]

def openedSteps : List (Statement × Bytes) :=
  [(.skipped (.openComment ⟨.openComment, openedText.tail, openedText.tail⟩),
      asciiBytes " \x7b- open\n"),
    (.skipped (.unrecognized (asciiBytes "map")), asciiBytes "map")]

/-- The comment costs the line that it is opened on, and neither the line above nor the
    line below. -/
theorem openedSteps_resume :
    Steps (passedText ++ openedText) (passedSteps ++ openedSteps) [] ∧
      Resumes passedSteps openedSteps passedText openedText [] ∧
      DropsLine passedSteps (asciiBytes " \x7b- open\n") := by
  have h : Steps (passedText ++ openedText) (passedSteps ++ openedSteps) [] := by
    decide +kernel
  obtain ⟨hresumes, hdrops⟩ := resumes_at_every_step h
  exact ⟨h, hresumes passedText openedText rfl (by decide), hdrops _ _ _ rfl⟩

end Document

end TerminalConfig
