import TerminalConfig.Cursor
import TerminalConfig.Proofs.ByteClasses
import TerminalConfig.Proofs.FixedText

/-! # Longest gaps — what is passed, by a grammar

    A gap is blanks, line comments and block comments (`IsGap`), where a block
    comment is written down without a counter.  `skipGap` goes by this grammar:

    * a gap is passed whatever follows it (`skipGap_of_isGap`), and what is
      passed is a gap, up to a place where nothing more is or where a comment
      is open (`exists_isGap`);
    * so the longest gap is passed, and nothing more (`Cursor.skips_longest_gap`). -/

namespace TerminalConfig

/-! ## Gaps -/

/-- A gap of `s` with `t` behind it that no other gap of `s` is longer than. -/
structure LongestGap (s w t : Bytes) : Prop where
  split : s = w ++ t
  gap : IsGap w t
  longest : ∀ {w' t' : Bytes}, s = w' ++ t' → IsGap w' t' → w'.length ≤ w.length

/-- What is passed is a gap.  Behind it nothing more is passed: a gap ends there, or
    a comment that nothing closes is open. -/
theorem exists_isGap (s : Bytes) :
    ∃ w t, s = w ++ t ∧ IsGap w t ∧
      (skipGap t = .ok t ∨ skipGap t = .error ⟨.openComment, t, t⟩) := by
  fun_induction skipGap s with
  | case1 => exact ⟨[], [], rfl, .nil, Or.inl skipGap_nil⟩
  | case2 a r ha ih =>
      obtain ⟨w, t, rfl, hw, ht⟩ := ih
      exact ⟨a :: w, t, rfl, .blank ha hw, ht⟩
  | case3 a r _ hl ih =>
      obtain ⟨text, hr⟩ := eq_of_startsLineComment hl
      obtain ⟨rfl, rfl⟩ := List.cons.inj hr
      obtain ⟨w, t, hs, hw, ht⟩ := ih
      rw [List.dropWhile_cons_of_pos (by decide)] at hs
      refine ⟨dash :: dash :: (text.takeWhile (· != newline) ++ w), t, ?_, .line ?_ ?_ hw, ht⟩
      · rw [List.cons_append, List.cons_append, List.append_assoc, ← hs,
          List.takeWhile_append_dropWhile]
      · intro hmem
        exact absurd (List.mem_takeWhile_imp hmem) (by decide)
      · intro b hb
        have hstop := List.head?_dropWhile_not (· != newline) text
        rw [hs, Option.mem_def.mp hb] at hstop
        simpa using hstop
  | case4 a r _ _ hb u hu _ ih =>
      obtain ⟨r', hr⟩ := eq_of_startsBlockComment hb
      obtain ⟨rfl, rfl⟩ := List.cons.inj hr
      obtain ⟨c, hc, hs⟩ := afterComment?_iff.mp hu
      obtain ⟨w, t, rfl, hw, ht⟩ := ih
      rw [List.tail_cons] at hs
      refine ⟨openBrace :: dash :: c ++ w, t, ?_, .block ⟨c, rfl, hc⟩ hw, ht⟩
      rw [hs]
      simp
  | case5 a r _ _ hb hn =>
      obtain ⟨r', hr⟩ := eq_of_startsBlockComment hb
      obtain ⟨rfl, rfl⟩ := List.cons.inj hr
      exact ⟨[], _, rfl, .nil, Or.inr (skipGap_open hn)⟩
  | case6 a r hb hl hc =>
      exact ⟨[], _, rfl, .nil, Or.inl (settled_cons.mpr ⟨hb, hl, hc⟩)⟩

/-- Where nothing more is passed, no gap goes on. -/
theorem length_le_of_stop {s t : Bytes} (hs : skipGap s = skipGap t)
    (ht : skipGap t = .ok t ∨ skipGap t = .error ⟨.openComment, t, t⟩) : t.length ≤ s.length := by
  rcases ht with ht | ht
  · exact (suffix_skipGap (hs.trans ht)).length_le
  · exact (skipGap_eq_error (hs.trans ht)).2.2.1.length_le

/-- A gap behind which nothing more is passed is the longest. -/
theorem IsGap.longestGap {w t : Bytes} (h : IsGap w t)
    (ht : skipGap t = .ok t ∨ skipGap t = .error ⟨.openComment, t, t⟩) :
    LongestGap (w ++ t) w t where
  split := rfl
  gap := h
  longest {w' t'} hs hw' := by
    have hsame : skipGap t' = skipGap t := by
      rw [← skipGap_of_isGap hw', ← hs, skipGap_of_isGap h]
    have hlength := congrArg List.length hs
    rw [List.length_append, List.length_append] at hlength
    have := length_le_of_stop hsame ht
    omega

/-- A comment that nothing closes does not start with a block comment. -/
theorem not_blockComment_of_open {t c : Bytes} (ht : skipGap t = .error ⟨.openComment, t, t⟩)
    (hct : c <+: t) : ¬ BlockComment c := by
  intro hc
  obtain ⟨u, rfl⟩ := hct
  have hle := length_le_of_stop (skipGap_blockComment hc u).symm (Or.inr ht)
  obtain ⟨r, rfl, -⟩ := hc
  rw [List.length_append, List.length_cons] at hle
  omega

/-- No block comment starts where no gap does. -/
theorem Settled.not_startsBlockComment {t : Bytes} (h : Settled t) : ¬ startsBlockComment t := by
  cases t with
  | nil => decide
  | cons a r => exact (settled_cons.mp h).2.2

/-- A step past a gap does what `skipGap` does. -/
theorem Step.run_skipGap (s : Bytes) :
    skipGap.reader.run s = (TerminalConfig.skipGap s).map fun t => (.nothing, t) := by
  rw [reader, Reader.run_map, Reader.run_gap]
  cases TerminalConfig.skipGap s <;> rfl

/-- From any cursor the longest gap is passed, and nothing more.  The step succeeds
    exactly where no block comment starts behind that gap, and then doing it again
    changes nothing; else it fails at that comment, which nothing closes, and the
    cursor stands there. -/
theorem Cursor.skips_longest_gap (c : Cursor) :
    ∃ w t result next, LongestGap c.rest w t ∧ c.step .skipGap = (result, next) ∧
      next.buffer = c.buffer ∧ next.rest = t ∧
        if startsBlockComment t then
          result = .error ⟨.openComment, t, t⟩ ∧ ∀ s, s <+: t → ¬ BlockComment s
        else
          result = .ok .nothing ∧ next.step .skipGap = (.ok .nothing, next) := by
  obtain ⟨w, t, hs, hgap, ht⟩ := exists_isGap c.rest
  have hskip : skipGap c.rest = skipGap t := by rw [hs, skipGap_of_isGap hgap]
  have hlongest : LongestGap c.rest w t := hs ▸ hgap.longestGap ht
  have hstep : ∀ d : Cursor, d.step .skipGap = d.read Step.skipGap.reader := fun _ => rfl
  rcases ht with ht | ht
  · have hrun : ∀ d : Cursor, skipGap d.rest = .ok t →
        Step.skipGap.reader.run d.rest = .ok (.nothing, t) := by
      intro d hd
      rw [Step.run_skipGap, hd]
      rfl
    have hread := read_of_ok (hrun c (hskip.trans ht))
    refine ⟨w, t, _, _, hlongest, (hstep c).trans hread, rfl, rfl, ?_⟩
    rw [if_neg (Settled.not_startsBlockComment ht)]
    exact ⟨rfl, (hstep _).trans (read_of_ok (hrun _ ht))⟩
  · have hrun : Step.skipGap.reader.run c.rest = .error ⟨.openComment, t, t⟩ := by
      rw [Step.run_skipGap, hskip, ht]
      rfl
    refine ⟨w, t, _, _, hlongest, (hstep c).trans (read_of_error hrun), rfl, rfl, ?_⟩
    rw [if_pos (skipGap_eq_error ht).2.2.2]
    exact ⟨rfl, fun s => not_blockComment_of_open ht⟩

/-- Markers do not share a dash: what looks closed at once goes on to the next marker. -/
example : skipGap (asciiBytes "\x7b-\x7d-\x7dx") = .ok (asciiBytes "x") := by
  decide +kernel

end TerminalConfig
