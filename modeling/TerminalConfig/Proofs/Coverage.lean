import TerminalConfig.Proofs.Acceptance
import TerminalConfig.Proofs.Values
import TerminalConfig.Source

/-! # Coverage — every byte of a document is accounted for

    Reading a document cuts it into the bytes that each statement takes and a
    rest in which no statement is left:

    * a statement takes at least a byte, and the statements take what they take
      one behind another, from the start (`Document.Steps`);
    * what is left is blanks and comments (`IsLayout`);
    * a skipped line ends with its newline or with the document, a `map`
      directive adds one entry of the catalogs, and a `debugLog` directive adds
      its path (`Statement.Adds`);
    * each skipped line is reported once (`Document.Reports`);
    * an attempt at a directive fails over the text and over nothing else, so there
      is a line to skip.

    `Document.covered` says this of every source, whatever its bytes. -/

namespace TerminalConfig

/-- Blanks, comments that are closed, and at most one line comment that the end
    of the text ends. -/
def IsLayout (s : Bytes) : Prop :=
  ∃ w line, s = w ++ line ∧ ClosedGap w ∧ (line = [] ∨ IsOpenLine line)

/-- A gap that nothing follows is layout. -/
theorem isLayout_of_skipGap {s : Bytes} (h : skipGap s = .ok []) : IsLayout s := by
  obtain ⟨w, line, hs, hw, hline⟩ := exists_gap h
  rw [List.append_nil] at hs
  exact ⟨w, line, hs, hw, hline.imp_right And.right⟩

/-- What is taken with a line ends with the newline, unless the line is the
    last. -/
theorem exists_line {s : Bytes} (hs : s ≠ []) :
    ∃ line, s = line ++ afterLine s ∧ (line.getLast? = some newline ∨ afterLine s = []) := by
  by_cases hn : newline ∈ s
  · obtain ⟨text, rest, rfl, ht⟩ := List.eq_append_cons_of_mem hn
    refine ⟨text ++ [newline], ?_, Or.inl (List.getLast?_concat)⟩
    rw [afterLine_line ht, List.append_assoc, List.singleton_append]
  · have hrest : afterLine s = [] := by
      rw [afterLine, List.dropWhile_eq_nil_iff.mpr (ne_newline_of_not_mem hn), List.tail_nil]
    exact ⟨s, by rw [hrest, List.append_nil], Or.inr hrest⟩

namespace Statement

/-- What a statement that takes the bytes `span` adds when `t` follows: nothing
    for a line that is skipped, one declared entry, or one path. -/
inductive Adds : Statement → (span t : Bytes) → Prop
  | nothing {statement : Statement} {span t : Bytes} : statement.fragment = .empty →
      span.getLast? = some newline ∨ t = [] → Adds statement span t
  | entry {statement : Statement} {span t : Bytes} {e : Entry} :
      statement.fragment = { inputMap := [e] } → e.Declared → Adds statement span t
  | debugLog {statement : Statement} {span t : Bytes} {path : Text} :
      statement.fragment = { debugLog := some path } → Adds statement span t

/-- What follows a statement is a suffix. -/
theorem suffix_next? {s t : Bytes} {statement : Statement} (h : next? s = some (statement, t)) :
    t <:+ s := by
  obtain ⟨e, -, -, rfl⟩ | ⟨u, d, hu, hd, -⟩ | ⟨u, e, hu, -, -, -, rfl⟩ := next?_cases h
  · exact suffix_afterLine s
  · exact (Reader.directive.rest_suffix hd).trans (suffix_skipGap hu)
  · exact (suffix_afterLine u).trans (suffix_skipGap hu)

/-- A statement takes some bytes off the front. -/
theorem exists_span {s t : Bytes} {statement : Statement} (h : next? s = some (statement, t)) :
    ∃ span, s = span ++ t ∧ span ≠ [] := by
  obtain ⟨span, hs⟩ := suffix_next? h
  refine ⟨span, hs.symm, ?_⟩
  rintro rfl
  have := length_next? h
  rw [← hs] at this
  exact absurd this (Nat.lt_irrefl _)

/-- What is taken up to the end of a line, from a suffix on, ends with the line. -/
theorem ends_with_line {span t u : Bytes} (hu : u <:+ span ++ t) (hne : u ≠ [])
    (ht : t = afterLine u) : span.getLast? = some newline ∨ t = [] := by
  obtain ⟨g, hg⟩ := hu
  obtain ⟨line, hline, hend⟩ := exists_line hne
  rw [← ht] at hline hend
  rw [hline, ← List.append_assoc] at hg
  have hspan := List.append_cancel_right hg
  refine hend.imp_left fun hlast => ?_
  rw [← hspan, List.getLast?_append, hlast]
  rfl

/-- A line that is skipped ends with its newline, unless it is the last. -/
theorem ends_line_of_skipped {span t : Bytes} {why : Skip}
    (h : next? (span ++ t) = some (.skipped why, t)) :
    span.getLast? = some newline ∨ t = [] := by
  obtain ⟨e, he, -, ht⟩ | ⟨_, _, -, -, hstatement⟩ | ⟨u, e, hu, hne, -, -, ht⟩ := next?_cases h
  · refine ends_with_line (List.suffix_refl _) ?_ ht
    -- the end of the text is no open comment
    intro hnil
    rw [hnil, skipGap_nil] at he
    cases he
  · cases hstatement
  · exact ends_with_line (suffix_skipGap hu) hne ht

/-- What one step through a document adds. -/
theorem adds_of_next? {span t : Bytes} {statement : Statement}
    (h : next? (span ++ t) = some (statement, t)) : statement.Adds span t := by
  cases statement with
  | directive d =>
      obtain ⟨u, hd⟩ := run_directive_of_next? h
      have hdeclared := Reader.declared_of_directive hd
      cases d with
      | map e => exact .entry rfl hdeclared
      | debugLog path => exact .debugLog rfl
  | skipped why => exact .nothing rfl (ends_line_of_skipped h)

end Statement

namespace Document

/-- The steps that reading a text takes, each with the bytes it takes, and what
    is left when no statement is. -/
inductive Steps : Bytes → List (Statement × Bytes) → Bytes → Prop
  | done {s : Bytes} : Statement.next? s = none → Steps s [] s
  | step {span t rest : Bytes} {statement : Statement} {steps : List (Statement × Bytes)} :
      Statement.next? (span ++ t) = some (statement, t) → span ≠ [] → Steps t steps rest →
      Steps (span ++ t) ((statement, span) :: steps) rest

/-- The bytes that the steps take. -/
def taken (steps : List (Statement × Bytes)) : Bytes :=
  (steps.map Prod.snd).flatten

theorem taken_cons (statement : Statement) (span : Bytes) (steps : List (Statement × Bytes)) :
    taken ((statement, span) :: steps) = span ++ taken steps := by
  rw [taken, taken, List.map_cons, List.flatten_cons]

theorem taken_append (before after : List (Statement × Bytes)) :
    taken (before ++ after) = taken before ++ taken after := by
  rw [taken, taken, taken, List.map_append, List.flatten_append]

/-- Every text is read to an end. -/
theorem exists_steps (s : Bytes) : ∃ steps rest, Steps s steps rest := by
  fun_induction statements s with
  | case1 s hn => exact ⟨[], s, .done hn⟩
  | case2 s statement t hn _ ih =>
      obtain ⟨steps, rest, hsteps⟩ := ih
      obtain ⟨span, rfl, hne⟩ := Statement.exists_span hn
      exact ⟨(statement, span) :: steps, rest, .step hn hne hsteps⟩

namespace Steps

variable {s rest : Bytes} {steps : List (Statement × Bytes)}

/-- The steps are the statements of the document. -/
theorem statements_eq (h : Steps s steps rest) : statements s = steps.map Prod.fst := by
  induction h with
  | done hn => exact statements_eq_nil.mpr (Statement.next?_eq_none.mp hn)
  | step hn _ _ ih => rw [statements_of_next? hn, ih, List.map_cons]

/-- What the steps add is what the document does, one by one. -/
theorem fragments_eq (h : Steps s steps rest) :
    fragments s = steps.map fun step => step.1.fragment := by
  rw [fragments, h.statements_eq, List.map_map]
  rfl

/-- The steps take all of the text but the rest. -/
theorem covers (h : Steps s steps rest) : s = taken steps ++ rest := by
  induction h with
  | done => rfl
  | step _ _ _ ih => rw [ih, taken_cons, List.append_assoc]

theorem span_ne_nil (h : Steps s steps rest) : ∀ step ∈ steps, step.2 ≠ [] := by
  induction h with
  | done => exact fun _ hstep => absurd hstep List.not_mem_nil
  | step _ hne _ ih =>
      intro step hstep
      rcases List.mem_cons.mp hstep with rfl | hstep
      · exact hne
      · exact ih step hstep

/-- There are no more steps than bytes. -/
theorem length_le (h : Steps s steps rest) : steps.length ≤ s.length := by
  induction h with
  | done => exact Nat.zero_le _
  | step _ hne _ ih =>
      have := List.length_pos_iff.mpr hne
      rw [List.length_cons, List.length_append]
      omega

/-- What is left is layout. -/
theorem isLayout (h : Steps s steps rest) : IsLayout rest := by
  induction h with
  | done hn => exact isLayout_of_skipGap (Statement.next?_eq_none.mp hn)
  | step _ _ _ ih => exact ih

end Steps

theorem steps_nil {s rest : Bytes} :
    Steps s [] rest ↔ s = rest ∧ Statement.next? s = none := by
  constructor
  · rintro ⟨hn⟩
    exact ⟨rfl, hn⟩
  · rintro ⟨rfl, hn⟩
    exact .done hn

/-- The first step takes its bytes off the front; the later steps are those of what is
    left, read alone. -/
theorem steps_cons {s rest span : Bytes} {statement : Statement}
    {after : List (Statement × Bytes)} :
    Steps s ((statement, span) :: after) rest ↔
      s = span ++ (taken after ++ rest) ∧
        Statement.next? s = some (statement, taken after ++ rest) ∧ span ≠ [] ∧
        Steps (taken after ++ rest) after rest := by
  constructor
  · intro h
    cases h with
    | step hn hne hsteps =>
        rw [← hsteps.covers]
        exact ⟨rfl, hn, hne, hsteps⟩
  · rintro ⟨rfl, hn, hne, hsteps⟩
    exact .step hn hne hsteps

/-- Whether these are the steps is found by reading. -/
instance decidableSteps (s rest : Bytes) :
    (steps : List (Statement × Bytes)) → Decidable (Steps s steps rest)
  | [] => decidable_of_iff _ steps_nil.symm
  | (_, _) :: after =>
      have := decidableSteps (taken after ++ rest) rest after
      decidable_of_iff _ steps_cons.symm

namespace Steps

variable {s rest span : Bytes} {before after : List (Statement × Bytes)} {statement : Statement}

/-- Behind any number of steps, the later ones are those of what is left, read alone. -/
theorem later (h : Steps s (before ++ after) rest) : Steps (taken after ++ rest) after rest := by
  induction before generalizing s with
  | nil => exact h.covers ▸ h
  | cons first before ih => exact ih (steps_cons.mp h).2.2.2

/-- Such a step reads its bytes off the front of what is left. -/
theorem next?_eq (h : Steps s (before ++ (statement, span) :: after) rest) :
    Statement.next? (span ++ (taken after ++ rest)) = some (statement, taken after ++ rest) := by
  obtain ⟨hs, hn, -, -⟩ := steps_cons.mp h.later
  rwa [hs] at hn

/-- Each step adds what its statement does, with the bytes of the later steps and
    the rest behind it. -/
theorem adds (h : Steps s (before ++ (statement, span) :: after) rest) :
    statement.Adds span (taken after ++ rest) :=
  Statement.adds_of_next? h.next?_eq

end Steps

/-- The report on a line that is skipped. -/
def Reports (source : Text) (buffer : Bytes) (report : LogRecord) (statement : Statement) : Prop :=
  ∃ why, statement = .skipped why ∧ report = ⟨.debug, .parser, skipText source buffer why⟩

/-- The statements that add nothing have one report each, in order. -/
theorem reports_filter (source : Text) (buffer : Bytes) (sts : List Statement) :
    List.Forall₂ (Reports source buffer) (sts.filterMap (report? source buffer))
      (sts.filter fun statement => statement.fragment = .empty) := by
  induction sts with
  | nil => exact .nil
  | cons statement sts ih =>
      cases statement with
      | directive d =>
          have hne : ¬ (Statement.directive d).fragment = .empty := d.fragment_ne_empty
          rw [List.filterMap_cons_none rfl, List.filter_cons_of_neg (by simpa using hne)]
          exact ih
      | skipped why =>
          have hempty : (Statement.skipped why).fragment = .empty := rfl
          rw [List.filterMap_cons, List.filter_cons_of_pos (by simpa using hempty)]
          exact .cons ⟨why, rfl, rfl⟩ ih

/-- How a document is read: what its steps take and add, what is left, and the
    reports. -/
structure Covered (source : Text) (s : Bytes) (steps : List (Statement × Bytes)) (rest : Bytes) :
    Prop where
  run : Steps s steps rest
  fragments : fragments s = steps.map fun step => step.1.fragment
  covers : s = taken steps ++ rest
  span_ne_nil : ∀ step ∈ steps, step.2 ≠ []
  length_le : (Document.fragments s).length ≤ s.length
  isLayout : IsLayout rest
  adds : ∀ before statement span after, steps = before ++ (statement, span) :: after →
    statement.Adds span (taken after ++ rest)
  reports : List.Forall₂ (Reports source s) (read source s).log
    ((statements s).filter fun statement => statement.fragment = .empty)

/-- Every source is read to its end, byte by byte.  No string that is read on the way
    holds a surrogate, so each one spells bytes, and no attempt at a directive fails
    over anything but the text. -/
theorem covered (source : Text) (input : Source) :
    (∃ steps rest, Covered source input.buffer steps rest) ∧
      (∀ s t text, Reader.stringLiteral.run s = .ok (text, t) →
        text.payload? = some text.payload) ∧
      ∀ attempt ∈ [Reader.mapDirective, Reader.debugLogDirective], ∀ s e,
        attempt.run s = .error e → e.fault.kind = .lexical ∨ e.fault.kind = .mismatch := by
  have hattempts : ∀ attempt ∈ [Reader.mapDirective, Reader.debugLogDirective],
      attempt.FaultsInText :=
    List.forall_mem_cons.mpr ⟨Reader.meets_mapDirective,
      List.forall_mem_singleton.mpr Reader.meets_debugLogDirective⟩
  refine ⟨?_, fun s t text => Reader.payload?_of_stringLiteral,
    fun attempt hattempt s e => (hattempts attempt hattempt).fault⟩
  obtain ⟨steps, rest, h⟩ := exists_steps input.buffer
  have hfragments := h.fragments_eq
  refine ⟨steps, rest, ⟨h, hfragments, h.covers, h.span_ne_nil, ?_, h.isLayout, ?_,
    reports_filter source _ _⟩⟩
  · rw [hfragments, List.length_map]
    exact h.length_le
  · rintro before statement span after rfl
    exact h.adds

end Document

end TerminalConfig
