import TerminalConfig.Cursor
import TerminalConfig.Proofs.FixedText
import Mathlib.Data.List.TakeWhile

/-! # Bounds — where a cursor and a failure can be

    A reader leaves a suffix of what it is given, and where it fails, the fault
    lies between the place where it began and the place where it stopped.  Here
    this is said of offsets, lines and columns, and of whole runs:

    * a place and its offset tell the same (`Cursor.rest_eq_drop`), and a place
      further on has a greater offset (`Cursor.offset_le_of_suffix`);
    * the line and the column of a location are those of its offset
      (`Location.fits_ofOffset`);
    * steps that read something take at least a byte (`Step.length_lt`);
    * so each step stays in bounds, and with it a run of any length
      (`Cursor.run_in_bounds`). -/

namespace TerminalConfig

/-! ## Offsets -/

namespace Cursor

theorem offset_le (c : Cursor) : c.offset ≤ c.buffer.length :=
  Nat.sub_le _ _

/-- What remains at a cursor is what stands behind its offset. -/
theorem rest_eq_drop (c : Cursor) : c.rest = c.buffer.drop c.offset :=
  List.suffix_iff_eq_drop.mp c.rest_suffix

/-- A place further on in the same buffer. -/
theorem offset_le_of_suffix {c d : Cursor} (hbuffer : d.buffer = c.buffer) (h : d.rest <:+ c.rest) :
    c.offset ≤ d.offset := by
  have := h.length_le
  rw [offset, offset, hbuffer]
  omega

theorem offset_lt_of_length {c d : Cursor} (hbuffer : d.buffer = c.buffer)
    (h : d.rest.length < c.rest.length) : c.offset < d.offset := by
  have := c.rest_suffix.length_le
  rw [offset, offset, hbuffer]
  omega

end Cursor

/-! ## Lines and columns -/

/-- The line of a location counts the newlines in front of it, and its column counts
    from where that line starts. -/
structure Location.Fits (l : Location) (buffer : Bytes) : Prop where
  line : l.line = (buffer.take l.offset).count newline + 1
  column : ∃ lines start, buffer.take l.offset = lines ++ start ∧ newline ∉ start ∧
    (∀ b ∈ lines.getLast?, b = newline) ∧ lines.length + l.column = l.offset + 1

/-- The line that a text ends in is what stands behind its last newline. -/
theorem exists_lastLine (s : Bytes) :
    ∃ lines start, s = lines ++ start ∧ newline ∉ start ∧ (∀ b ∈ lines.getLast?, b = newline) ∧
      start.length = (s.reverse.takeWhile (· != newline)).length := by
  refine ⟨(s.reverse.dropWhile (· != newline)).reverse,
    (s.reverse.takeWhile (· != newline)).reverse, ?_, ?_, ?_, List.length_reverse⟩
  · rw [← List.reverse_append, List.takeWhile_append_dropWhile, List.reverse_reverse]
  · intro hmem
    exact absurd (List.mem_takeWhile_imp (List.mem_reverse.mp hmem)) (by decide)
  · intro b hb
    rw [List.getLast?_reverse] at hb
    have hstop := List.head?_dropWhile_not (· != newline) s.reverse
    rw [Option.mem_def.mp hb] at hstop
    simpa using hstop

/-- The location of an offset fits. -/
theorem Location.fits_ofOffset {buffer : Bytes} {offset : Nat} (h : offset ≤ buffer.length) :
    (Location.ofOffset buffer offset).Fits buffer where
  line := rfl
  column := by
    obtain ⟨lines, start, hsplit, hstart, hlines, hlength⟩ := exists_lastLine (buffer.take offset)
    refine ⟨lines, start, hsplit, hstart, hlines, ?_⟩
    have htotal := congrArg List.length hsplit
    rw [List.length_append, List.length_take, Nat.min_eq_left h] at htotal
    simp only [ofOffset, ← hlength, List.length_take, Nat.min_eq_left h]
    omega

/-! ## Steps -/

/-- The step takes at least a byte of `s` if it succeeds there. -/
def Step.Takes : Step → (s : Bytes) → Prop
  | peek, _ | atEnd, _ | skipGap, _ | seek _, _ | tokens, _ => False
  | symbol text, _ => text ≠ ""
  | skipLine, s => s ≠ []
  | _, _ => True

/-- A value takes at least a byte, whatever its shape. -/
theorem Shape.progresses_reader (shape : Shape) : shape.reader.Progresses := by
  cases shape with
  | int => exact Reader.progresses_natural.map _
  | char => exact Reader.progresses_charLiteral.map _
  | string => exact Reader.progresses_stringLiteral.map _
  | list element =>
      rw [reader]
      exact Reader.Progresses.map _ (Reader.progresses_list _)
  | enum name variants => exact Reader.progresses_variant name _
  | blank => exact Reader.Progresses.fail _

/-- A step that takes a byte leaves less. -/
theorem Step.length_lt {step : Step} {s t : Bytes} {a : Answer} (htakes : step.Takes s)
    (h : step.reader.run s = .ok (a, t)) : t.length < s.length := by
  cases step with
  | identifier => exact Reader.progresses_identifier.map _ h
  | stringLiteral => exact Reader.progresses_stringLiteral.map _ h
  | charLiteral => exact Reader.progresses_charLiteral.map _ h
  | natural => exact Reader.progresses_natural.map _ h
  | symbol text =>
      have hne : text.toList ≠ [] := fun hnil => htakes (String.toList_eq_nil_iff.mp hnil)
      exact Reader.Progresses.map _ (Reader.progresses_symbol hne) h
  | value shape => exact Reader.Progresses.map _ shape.progresses_reader h
  | mapDirective =>
      exact Reader.Progresses.map _ (Reader.Progresses.bind (Reader.progresses_keyword _)) h
  | debugLogDirective =>
      exact Reader.Progresses.map _ (Reader.Progresses.bind (Reader.progresses_keyword _)) h
  | skipLine =>
      cases h
      exact length_afterLine htakes
  | peek => exact htakes.elim
  | atEnd => exact htakes.elim
  | skipGap => exact htakes.elim
  | seek offset => exact htakes.elim
  | tokens => exact htakes.elim

/-- A step of a run: where the cursor stood, what was done and what it gave, and
    where the cursor stands then. -/
structure Move where
  before : Cursor
  step : Step
  result : Except Failure Answer
  after : Cursor

/-- What holds of every step, whether it succeeds or fails. -/
structure Move.InBounds (m : Move) : Prop where
  buffer : m.after.buffer = m.before.buffer
  offset_le : m.after.offset ≤ m.after.buffer.length
  place : m.after.rest = m.after.buffer.drop m.after.offset
  forward : (∀ n, m.step ≠ .seek n) → m.before.offset ≤ m.after.offset
  takes : ∀ a, m.result = .ok a → m.step.Takes m.before.rest → m.before.offset < m.after.offset
  seek : ∀ n, m.step = .seek n → n ≤ m.before.buffer.length → m.after.offset = n
  failure : ∀ name e l, m.result = .error e →
    l = (Diagnostic.ofFailure name m.before.buffer e).location →
    m.before.offset ≤ l.offset ∧ l.offset ≤ m.after.offset ∧ l.Fits m.before.buffer

namespace Cursor

/-- Any step but a jump reads. -/
theorem step_of_ne_seek (c : Cursor) {step : Step} (h : ∀ n, step ≠ .seek n) :
    c.step step = c.read step.reader := by
  cases step with
  | seek n => exact absurd rfl (h n)
  | _ => rfl

/-- A jump goes where it is told. -/
theorem inBounds_seek (c : Cursor) (n : Nat) :
    Move.InBounds ⟨c, .seek n, .ok .nothing, c.seek n⟩ where
  buffer := rfl
  offset_le := offset_le _
  place := rest_eq_drop _
  forward h := absurd rfl (h n)
  takes _ _ h := h.elim
  seek m hm hle := by
    cases hm
    have hle : n ≤ c.buffer.length := hle
    show c.buffer.length - (c.buffer.drop n).length = n
    rw [List.length_drop]
    omega
  failure _ _ _ h := nomatch h

/-- Reading goes forward, and fails between where it began and where it stopped. -/
theorem inBounds_read (c : Cursor) {step : Step} (h : ∀ n, step ≠ .seek n) :
    Move.InBounds ⟨c, step, (c.read step.reader).1, (c.read step.reader).2⟩ := by
  cases hrun : step.reader.run c.rest with
  | ok v =>
      obtain ⟨a, t⟩ := v
      rw [read_of_ok hrun]
      exact {
        buffer := rfl
        offset_le := offset_le _
        place := rest_eq_drop _
        forward := fun _ => offset_le_of_suffix rfl (step.reader.rest_suffix hrun)
        takes := fun _ _ htakes => offset_lt_of_length rfl (Step.length_lt htakes hrun)
        seek := fun n hn => absurd hn (h n)
        failure := fun _ _ _ he => nomatch he }
  | error e =>
      obtain ⟨hstop, hsite⟩ := step.reader.failure_suffix hrun
      rw [read_of_error hrun]
      refine {
        buffer := rfl
        offset_le := offset_le _
        place := rest_eq_drop _
        forward := fun _ => offset_le_of_suffix rfl (hstop.trans hsite)
        takes := fun _ ha => nomatch ha
        seek := fun n hn => absurd hn (h n)
        failure := ?_ }
      intro name e' l he hl
      cases he
      subst hl
      -- the site of the failure is a place in the buffer, and so has an offset
      let site : Cursor := ⟨c.buffer, e.site, hsite.trans c.rest_suffix⟩
      exact ⟨offset_le_of_suffix (d := site) rfl hsite, offset_le_of_suffix (c := site) rfl hstop,
        Location.fits_ofOffset site.offset_le⟩

/-- Each step stays in bounds. -/
theorem inBounds_step (c : Cursor) (step : Step) :
    Move.InBounds ⟨c, step, (c.step step).1, (c.step step).2⟩ := by
  by_cases h : ∃ n, step = .seek n
  · obtain ⟨n, rfl⟩ := h
    exact c.inBounds_seek n
  · have hne : ∀ n, step ≠ .seek n := fun n hn => h ⟨n, hn⟩
    rw [c.step_of_ne_seek hne]
    exact c.inBounds_read hne

/-- Steps one after another, each from where the one before it left the cursor. -/
def run (c : Cursor) : List Step → List Move
  | [] => []
  | step :: steps => ⟨c, step, (c.step step).1, (c.step step).2⟩ :: (c.step step).2.run steps

/-- However many steps are done from a place in a buffer, and whether they succeed or
    fail, each of them stays in bounds, in that buffer. -/
theorem run_in_bounds (c : Cursor) (steps : List Step) :
    ∀ m ∈ c.run steps, m.before.buffer = c.buffer ∧ m.InBounds := by
  induction steps generalizing c with
  | nil => exact fun _ hm => absurd hm List.not_mem_nil
  | cons step steps ih =>
      have hstep := c.inBounds_step step
      intro m hm
      rcases List.mem_cons.mp hm with rfl | hm
      · exact ⟨rfl, hstep⟩
      · obtain ⟨hbuffer, hbounds⟩ := ih _ m hm
        exact ⟨hbuffer.trans hstep.buffer, hbounds⟩

/-- A string with a letter behind a backslash that no escape starts with. -/
def unknownEscape : Bytes :=
  asciiBytes "\"\\q\""

/-- The string on a line of its own, behind a word. -/
def strayEscape : Bytes :=
  asciiBytes "map\n " ++ unknownEscape

/-- The word is read, and the string fails at its escape: it starts at offset 5 and
    is left at offset 7, and the fault between them is on the second line. -/
theorem strayEscape_in_bounds :
    ∃ m ∈ (start strayEscape).run [.identifier, .stringLiteral], m.InBounds ∧
      m.step = .stringLiteral ∧ m.before.offset = 5 ∧ m.after.offset = 7 ∧
      ∃ e, m.result = .error e ∧
        (Diagnostic.ofFailure "" strayEscape e).location = ⟨6, 2, 3⟩ := by
  have hword : Reader.identifier.run strayEscape = .ok ("map", unknownEscape) := by
    decide +kernel
  have hstring : Reader.stringLiteral.run unknownEscape
      = .error ⟨.unknownEscape (ascii 'q'), asciiBytes "\\q\"", asciiBytes "q\""⟩ := by
    decide +kernel
  have hfirst : Step.identifier.reader.run strayEscape = .ok (.name "map", unknownEscape) := by
    rw [Step.reader, Reader.run_map, hword]
  have hsecond : Step.stringLiteral.reader.run unknownEscape
      = .error ⟨.unknownEscape (ascii 'q'), asciiBytes "\\q\"", asciiBytes "q\""⟩ := by
    rw [Step.reader, Reader.run_map, hstring]
  -- where the word leaves the cursor
  let c := ((start strayEscape).step .identifier).2
  have hbuffer : c.buffer = strayEscape := buffer_read _ _
  have hrest : c.rest = unknownEscape :=
    congrArg (fun r => r.2.rest) (read_of_ok (c := start strayEscape) hfirst)
  have hfailed := read_of_error (c := c) (hrest.symm ▸ hsecond)
  have hmem : ⟨c, .stringLiteral, (c.step .stringLiteral).1, (c.step .stringLiteral).2⟩
      ∈ (start strayEscape).run [.identifier, .stringLiteral] :=
    List.mem_cons_of_mem _ List.mem_cons_self
  refine ⟨_, hmem, (run_in_bounds _ _ _ hmem).2, rfl, ?_, ?_, _, congrArg Prod.fst hfailed, ?_⟩
  · rw [offset, hbuffer, hrest]
    decide
  · refine (congrArg (fun r => r.2.offset) hfailed).trans ?_
    show c.buffer.length - (asciiBytes "q\"").length = 7
    rw [hbuffer]
    decide
  · decide +kernel

end Cursor

end TerminalConfig
